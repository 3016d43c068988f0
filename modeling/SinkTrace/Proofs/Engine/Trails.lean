import Mathlib.Data.List.Nodup
import SinkTrace.Proofs.Engine.Moves

/-!
The trail of a run. Every activation gets a serial number that is used for no other one. The trail
notes on which recursion loops an activation rests: the loops whose provisional answers it was
given, and those that the callees rest on whose new summaries it was given. A summary rests on the
loops of its activation. The machine knows none of this; it keeps one level for each activation.
-/

namespace SinkTrace

/-- A summary, with the serial number of its activation and of the heads of the loops that it rests
on. -/
structure Trail.Record where
  serial : Nat
  entry : SummaryKey × Summary
  rests : List Nat

/-- An activation on the stack. -/
structure Trail.Frame where
  serial : Nat
  rests : List Nat := []
  /-- What waits for the loop that this activation heads. -/
  pending : List Trail.Record := []

structure Trail where
  /-- The serial number of the next activation. -/
  next : Nat
  /-- From the topmost activation down. -/
  frames : List Trail.Frame
  /-- Summaries that were put into the cache. -/
  kept : List Trail.Record

namespace Trail

namespace Frame

def relyOn (f : Frame) (serials : List Nat) : Frame := { f with rests := f.rests ++ serials }

def await (f : Frame) (records : List Record) : Frame := { f with pending := f.pending ++ records }

/-- What an activation that ends as `a` leaves behind: what waited for its loop, and its own
summary. -/
def records (f : Frame) (a : Activation) : List Record :=
  f.pending ++ [⟨f.serial, (a.key, a.summary), f.rests⟩]

theorem own_mem_records (f : Frame) {a : Activation} :
    ⟨f.serial, (a.key, a.summary), f.rests⟩ ∈ f.records a :=
  List.mem_append_right _ List.mem_cons_self

/-- The serial numbers of a frame and of what waits for it. -/
def serials (f : Frame) : List Nat := f.serial :: f.pending.map Record.serial

end Frame

/-- The serial numbers on the stack, from the topmost one down. -/
def stack (t : Trail) : List Nat := t.frames.map Frame.serial

def modifyLevel (level : Nat) (g : Frame → Frame) : List Frame → List Frame
  | [] => []
  | f :: fs => if fs.length = level then g f :: fs else f :: modifyLevel level g fs

/-! The trail of a run. -/

/-- The trail of a machine with one activation. -/
def start : Trail := ⟨1, [{ serial := 0 }], []⟩

/-- The topmost activation is given the provisional answer of the loop at a level. -/
def rely (level : Nat) (t : Trail) : Trail :=
  { t with frames := t.frames.modifyHead (·.relyOn t.stack.reverse[level]?.toList) }

def enter (t : Trail) : Trail :=
  { t with next := t.next + 1, frames := { serial := t.next } :: t.frames }

/-- The topmost activation starts over; what waited for its loop is dropped. -/
def restart (t : Trail) : Trail :=
  { t with frames := t.frames.modifyHead ({ · with pending := [] }) }

/-- The topmost activation ends as `a`, and its caller is given the summary. -/
def complete (a : Activation) (t : Trail) : Trail :=
  match t.frames with
  | [] => t
  | f :: fs =>
    match a.dependency.filter (· < fs.length) with
    | none =>
      { t with frames := fs.modifyHead (·.relyOn f.rests), kept := t.kept ++ f.records a }
    | some level =>
      { t with frames :=
          (modifyLevel level (·.await (f.records a)) fs).modifyHead (·.relyOn f.rests) }

/-- The trail after a step of the machine. -/
def after (s : Setup) (m : Machine) (t : Trail) : Trail :=
  match m.activations with
  | [] => t
  | a :: below =>
    match Machine.advance s a m.ledger with
    | .failed _ _ => t
    | .answered _ _ => t
    | .asks r a' l' =>
      -- A summary from the cache is not a new one: it leaves no trace.
      if (l'.cache.get r.key).1.isSome then t
      else (Machine.levelOf? r.key (a' :: below)).elim t.enter t.rely
    | .ends a' l' =>
      if a'.recursion.any (Machine.startsOver s a' l') then t.restart else t.complete a'

/-- The machines of a run with their trails. -/
inductive Follows (s : Setup) (first : Machine) : Machine → Trail → Prop where
  | start : Follows s first first start
  | step {m m' : Machine} {t : Trail} (hf : Follows s first m t)
    (hs : Machine.step s m = .running m') : Follows s first m' (t.after s m)

/-! Lists of frames. -/

variable {level : Nat} {g : Frame → Frame} {f x : Frame} {fs : List Frame} {t : Trail}
  {a : Activation}

theorem map_serial_await (level : Nat) (records : List Record) (fs : List Frame) :
    (modifyLevel level (·.await records) fs).map Frame.serial = fs.map Frame.serial := by
  induction fs with
  | nil => rfl
  | cons f fs ih =>
    unfold modifyLevel
    split
    · rfl
    · rw [List.map_cons, List.map_cons, ih]

theorem map_serial_relyOnTop (serials : List Nat) (fs : List Frame) :
    (fs.modifyHead (·.relyOn serials)).map Frame.serial = fs.map Frame.serial := by
  cases fs <;> rfl

theorem mem_modifyLevel (hx : x ∈ modifyLevel level g fs) : x ∈ fs ∨ ∃ f ∈ fs, x = g f := by
  induction fs with
  | nil => exact .inl hx
  | cons f fs ih =>
    unfold modifyLevel at hx
    split at hx
    · rcases List.mem_cons.mp hx with rfl | hx
      · exact .inr ⟨f, List.mem_cons_self, rfl⟩
      · exact .inl (List.mem_cons_of_mem _ hx)
    · rcases List.mem_cons.mp hx with rfl | hx
      · exact .inl List.mem_cons_self
      · rcases ih hx with hx | ⟨f', hf', rfl⟩
        · exact .inl (List.mem_cons_of_mem _ hx)
        · exact .inr ⟨f', List.mem_cons_of_mem _ hf', rfl⟩

theorem mem_modifyHead (hx : x ∈ fs.modifyHead g) : x ∈ fs ∨ ∃ f ∈ fs, x = g f := by
  cases fs with
  | nil => exact .inl hx
  | cons f fs =>
    rcases List.mem_cons.mp hx with rfl | hx
    · exact .inr ⟨f, List.mem_cons_self, rfl⟩
    · exact .inl (List.mem_cons_of_mem _ hx)

/-- What is handed to a level is added to what the frames hold. -/
theorem serials_modifyLevel (records : List Record) (hl : level < fs.length) :
    ((modifyLevel level (·.await records) fs).flatMap Frame.serials).Perm
      (records.map Record.serial ++ fs.flatMap Frame.serials) := by
  induction fs with
  | nil => cases hl
  | cons f fs ih =>
    unfold modifyLevel
    split
    · simp only [List.flatMap_cons, Frame.serials, Frame.await, List.map_append, List.cons_append,
        List.append_assoc]
      refine .trans (.cons _ ?_) List.perm_middle.symm
      rw [← List.append_assoc, ← List.append_assoc]
      exact List.perm_append_comm.append_right _
    · rename_i hne
      have hl' : level < fs.length := by
        rw [List.length_cons] at hl
        omega
      simp only [List.flatMap_cons]
      refine ((ih hl').append_left _).trans ?_
      rw [← List.append_assoc, ← List.append_assoc]
      exact List.perm_append_comm.append_right _

/-! Serial numbers. -/

/-- All serial numbers that the trail still holds. -/
def issued (t : Trail) : List Nat := t.frames.flatMap Frame.serials ++ t.kept.map Record.serial

structure Record.Before (next : Nat) (r : Record) : Prop where
  serial : r.serial < next
  rests : ∀ n ∈ r.rests, n < next

structure Frame.Before (next : Nat) (f : Frame) : Prop where
  serial : f.serial < next
  rests : ∀ n ∈ f.rests, n < next
  pending : ∀ r ∈ f.pending, r.Before next

/-- Serial numbers are given once, and only those that were given occur. -/
structure Numbered (t : Trail) : Prop where
  distinct : t.issued.Nodup
  frames : ∀ f ∈ t.frames, f.Before t.next
  kept : ∀ r ∈ t.kept, r.Before t.next

theorem Record.Before.succ {next : Nat} {r : Record} (h : r.Before next) : r.Before (next + 1) :=
  ⟨Nat.lt_succ_of_lt h.serial, fun n hn => Nat.lt_succ_of_lt (h.rests n hn)⟩

namespace Frame.Before

variable {next : Nat}

theorem succ (h : f.Before next) : f.Before (next + 1) :=
  ⟨Nat.lt_succ_of_lt h.serial, fun n hn => Nat.lt_succ_of_lt (h.rests n hn),
    fun r hr => (h.pending r hr).succ⟩

theorem relyOn (h : f.Before next) {serials : List Nat} (hs : ∀ n ∈ serials, n < next) :
    (f.relyOn serials).Before next := by
  refine ⟨h.serial, fun n hn => ?_, h.pending⟩
  rcases List.mem_append.mp hn with hn | hn
  · exact h.rests n hn
  · exact hs n hn

theorem await (h : f.Before next) {records : List Record} (hr : ∀ r ∈ records, r.Before next) :
    (f.await records).Before next := by
  refine ⟨h.serial, h.rests, fun r hin => ?_⟩
  rcases List.mem_append.mp hin with hin | hin
  · exact h.pending r hin
  · exact hr r hin

theorem records (h : f.Before next) (a : Activation) : ∀ r ∈ f.records a, r.Before next := by
  intro r hr
  rcases List.mem_append.mp hr with hr | hr
  · exact h.pending r hr
  · rw [List.mem_singleton.mp hr]
    exact ⟨h.serial, h.rests⟩

theorem serials_lt (h : f.Before next) : ∀ n ∈ f.serials, n < next := by
  intro n hn
  rcases List.mem_cons.mp hn with rfl | hn
  · exact h.serial
  · obtain ⟨r, hr, rfl⟩ := List.mem_map.mp hn
    exact (h.pending r hr).serial

end Frame.Before

theorem before_relyOnTop {next : Nat} (hfs : ∀ f ∈ fs, f.Before next) {serials : List Nat}
    (hs : ∀ n ∈ serials, n < next) : ∀ x ∈ fs.modifyHead (·.relyOn serials), x.Before next := by
  intro x hx
  rcases mem_modifyHead hx with hx | ⟨f, hf, rfl⟩
  · exact hfs x hx
  · exact (hfs f hf).relyOn hs

theorem flatMap_relyOnTop (fs : List Frame) (serials : List Nat) :
    (fs.modifyHead (·.relyOn serials)).flatMap Frame.serials = fs.flatMap Frame.serials := by
  cases fs <;> rfl

theorem serials_records (f : Frame) (a : Activation) :
    ((f.records a).map Record.serial).Perm f.serials := by
  unfold Frame.records Frame.serials
  rw [List.map_append]
  exact List.perm_append_comm

namespace Numbered

theorem lt_next (h : t.Numbered) : ∀ n ∈ t.issued, n < t.next := by
  intro n hn
  rcases List.mem_append.mp hn with hn | hn
  · obtain ⟨f, hf, hn⟩ := List.mem_flatMap.mp hn
    exact (h.frames f hf).serials_lt n hn
  · obtain ⟨r, hr, rfl⟩ := List.mem_map.mp hn
    exact (h.kept r hr).serial

theorem stack_lt (h : t.Numbered) : ∀ n ∈ t.stack, n < t.next := by
  intro n hn
  obtain ⟨f, hf, rfl⟩ := List.mem_map.mp hn
  exact (h.frames f hf).serial

theorem stack_nodup (h : t.Numbered) : t.stack.Nodup := by
  have hsub : ∀ fs : List Frame, (fs.map Frame.serial).Sublist (fs.flatMap Frame.serials) := by
    intro fs
    induction fs with
    | nil => exact .slnil
    | cons f fs ih =>
      refine .cons_cons _ (ih.trans (List.sublist_append_right _ _))
  exact h.distinct.sublist ((hsub t.frames).trans (List.sublist_append_left _ _))

/-- What waits at a frame has not been kept. -/
theorem not_kept (h : t.Numbered) (hf : f ∈ t.frames) {r : Record} (hr : r ∈ f.pending) :
    r ∉ t.kept := by
  intro hk
  have hwaits : r.serial ∈ t.frames.flatMap Frame.serials :=
    List.mem_flatMap.mpr ⟨f, hf, List.mem_cons_of_mem _ (List.mem_map_of_mem hr)⟩
  exact List.disjoint_of_nodup_append h.distinct hwaits (List.mem_map_of_mem hk)

theorem start : Trail.start.Numbered := by
  refine ⟨by decide, fun f hf => ?_, fun r hr => absurd hr List.not_mem_nil⟩
  rw [List.mem_singleton.mp hf]
  exact ⟨Nat.zero_lt_one, fun n hn => absurd hn List.not_mem_nil,
    fun r hr => absurd hr List.not_mem_nil⟩

theorem rely (h : t.Numbered) (level : Nat) : (t.rely level).Numbered := by
  have hissued : (t.rely level).issued = t.issued := by
    unfold issued Trail.rely
    cases t.frames <;> rfl
  refine ⟨hissued ▸ h.distinct, fun x hx => ?_, h.kept⟩
  rcases mem_modifyHead hx with hx | ⟨f, hf, rfl⟩
  · exact h.frames x hx
  · refine (h.frames f hf).relyOn fun n hn => h.stack_lt n ?_
    exact List.mem_reverse.mp (List.mem_of_getElem? (Option.mem_toList.mp hn))

theorem enter (h : t.Numbered) : t.enter.Numbered := by
  refine ⟨?_, fun x hx => ?_, fun r hr => (h.kept r hr).succ⟩
  · refine List.nodup_cons.mpr ⟨fun hin => ?_, h.distinct⟩
    exact Nat.lt_irrefl _ (h.lt_next t.next hin)
  · rcases List.mem_cons.mp hx with rfl | hx
    · exact ⟨Nat.lt_succ_self _, fun n hn => absurd hn List.not_mem_nil,
        fun r hr => absurd hr List.not_mem_nil⟩
    · exact (h.frames x hx).succ

theorem restart (h : t.Numbered) : t.restart.Numbered := by
  have hsub : t.restart.issued.Sublist t.issued := by
    unfold issued Trail.restart
    cases t.frames with
    | nil => exact .refl _
    | cons f fs =>
      refine .append_right ?_ _
      exact .cons_cons _ (List.sublist_append_right _ _)
  refine ⟨h.distinct.sublist hsub, fun x hx => ?_, h.kept⟩
  rcases mem_modifyHead hx with hx | ⟨f, hf, rfl⟩
  · exact h.frames x hx
  · exact ⟨(h.frames f hf).serial, (h.frames f hf).rests, fun r hr => absurd hr List.not_mem_nil⟩

theorem complete (h : t.Numbered) (a : Activation) : (t.complete a).Numbered := by
  obtain ⟨next, frames, kept⟩ := t
  cases frames with
  | nil => exact h
  | cons f fs =>
    have hf := h.frames f List.mem_cons_self
    have hfs : ∀ x ∈ fs, x.Before next := fun x hx => h.frames x (List.mem_cons_of_mem _ hx)
    unfold Trail.complete
    simp only
    split
    · refine ⟨?_, before_relyOnTop hfs hf.rests, fun r hr => ?_⟩
      · -- The records move from the frames to what is kept.
        refine List.Perm.nodup ?_ h.distinct
        simp only [issued, flatMap_relyOnTop, List.map_append, List.flatMap_cons,
          List.append_assoc]
        refine List.perm_append_comm.trans ?_
        rw [List.append_assoc]
        exact ((serials_records f a).symm.append_left _).append_left _
      · rcases List.mem_append.mp hr with hr | hr
        · exact h.kept r hr
        · exact hf.records a r hr
    · rename_i level hd
      have hl : level < fs.length := by simpa using (Option.filter_eq_some_iff.mp hd).2
      refine ⟨?_, before_relyOnTop (fun x hx => ?_) hf.rests, h.kept⟩
      · refine List.Perm.nodup ?_ h.distinct
        simp only [issued, flatMap_relyOnTop, List.flatMap_cons]
        refine List.Perm.append_right _ (.trans ?_ (serials_modifyLevel _ hl).symm)
        exact (serials_records f a).symm.append_right _
      · rcases mem_modifyLevel hx with hx | ⟨y, hy, rfl⟩
        · exact hfs x hx
        · exact (hfs y hy).await (hf.records a)

end Numbered

end Trail

end SinkTrace
