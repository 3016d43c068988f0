import SinkTrace.Proofs.Paths

/-!
Programs that are put together while short forms are expanded. Whatever is added to them, and in
whatever order, every body that they store is normal.
-/

namespace SinkTrace

theorem ShortForm.isShort_expand (form : ShortForm) : form.expand.1.isShort = false := by
  cases form <;> rfl

theorem Instruction.isShort_normalize (i : Instruction) : i.normalize.opcode.isShort = false := by
  unfold normalize
  split
  · exact ShortForm.isShort_expand _
  · rename_i hlong
    cases ho : i.opcode with
    | short form => exact absurd ho (hlong form)
    | _ => rfl

namespace Body

variable {b : Body} {i : Nat} {instruction : Instruction}

theorem hasShortForms_normalize (b : Body) : b.normalize.hasShortForms = false := by
  rw [hasShortForms, normalize, Array.any_map, Array.any_eq_false]
  intro i hi
  simp [Instruction.isShort_normalize]

theorem isShort_of_getElem? (hb : b.hasShortForms = false) (hi : b.code[i]? = some instruction) :
    instruction.opcode.isShort = false := by
  obtain ⟨hlt, rfl⟩ := Array.getElem?_eq_some_iff.mp hi
  exact Bool.eq_false_iff.mpr (Array.any_eq_false.mp hb i hlt)

end Body

namespace Program

/-- Every method was added while short forms were expanded. From some time on they may be kept,
when no method is added any more. -/
inductive Assembled : Program → Prop where
  | empty : Assembled {}
  | method {p : Program} (hp : Assembled p) (hk : p.keepShortForms = false) (d : MethodDef) :
    Assembled (p.addMethod d)
  | callSite {p : Program} (hp : Assembled p) (target : Signature) (site : CallSite) :
    Assembled (p.addCallSite target site)
  | implementation {p : Program} (hp : Assembled p) (base : Signature) (method : MethodRef)
    (assembly : String) : Assembled (p.addImplementation base method assembly)
  | reference {p : Program} (hp : Assembled p) (source target : String) :
    Assembled (p.addReference source target)
  | module {p : Program} (hp : Assembled p) (name : String) : Assembled (p.skipModule name)
  | keep {p : Program} (hp : Assembled p) : Assembled { p with keepShortForms := true }

namespace Assembled

variable {p : Program} {signature : Signature} {d : MethodDef} {b : Body}

theorem keyed (hp : p.Assembled) : p.Keyed := by
  induction hp with
  | empty => exact keyed_empty
  | method _ _ d ih => exact ih.addMethod d
  | callSite _ _ _ ih | implementation _ _ _ _ ih | reference _ _ _ ih | module _ _ ih
  | keep _ ih => exact ih

theorem normal (hp : p.Assembled) (hd : p.method? signature = some d) (hb : d.body = some b) :
    b.hasShortForms = false := by
  induction hp with
  | empty => cases hd
  | @method p _ hk d' ih =>
    rw [method?, addMethod, if_neg (by simp [hk]), Table.get?_insert] at hd
    split at hd
    · cases hd
      obtain ⟨given, _, rfl⟩ := Option.map_eq_some_iff.mp hb
      exact given.hasShortForms_normalize
    · exact ih hd
  | callSite _ _ _ ih | implementation _ _ _ _ ih | reference _ _ _ ih | module _ _ ih
  | keep _ ih => exact ih hd

end Assembled

end Program

end SinkTrace
