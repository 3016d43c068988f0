import SinkTrace.Proofs.Engine.Termination
import SinkTrace.Proofs.Engine.Trails

/-!
What the machine knows about the loops that its activations rest on: for each activation the lowest
level of such a loop, and nothing else. That is enough, because a summary that rests on heads at
several levels is handed down to the lowest of them, and rests on nothing below it.
-/

namespace SinkTrace

namespace Activation

theorem pending_extendLoop (a : Activation) (participants : List SummaryKey) :
    (a.extendLoop participants).pending = a.pending := by
  unfold pending extendLoop
  cases a.recursion <;> rfl

/-- Hands summaries to the loop that an activation heads. -/
def deferAll (entries : List (SummaryKey × Summary)) (a : Activation) : Activation :=
  { a with recursion := a.recursion.map (·.deferAll entries) }

theorem pending_deferAll {a : Activation} (entries : List (SummaryKey × Summary))
    (hr : a.recursion.isSome) : (a.deferAll entries).pending = a.pending ++ entries := by
  have hloop : ∀ (entries : List (SummaryKey × Summary)) (loop : RecursionLoop Fingerprint),
      (loop.deferAll entries).pending = loop.pending ++ entries := by
    intro entries
    induction entries with
    | nil => exact fun loop => (List.append_nil _).symm
    | cons entry entries ih =>
      intro loop
      refine (ih (loop.defer entry.1 entry.2)).trans ?_
      simp [RecursionLoop.defer]
  obtain ⟨loop, hsome⟩ := Option.isSome_iff_exists.mp hr
  simp [pending, deferAll, hsome, hloop]

theorem isSome_deferAll {entries : List (SummaryKey × Summary)} (a : Activation)
    (hr : a.recursion.isSome) : (a.deferAll entries).recursion.isSome := by
  simpa [deferAll] using hr

end Activation

/-! Levels. -/

namespace Machine

variable {level d : Nat} {a : Activation} {as below : List Activation}
  {g : Activation → Activation}

theorem atLevel?_eq (level : Nat) (as : List Activation) :
    atLevel? level as = as.reverse[level]? := by
  induction as with
  | nil => rfl
  | cons a below ih =>
    unfold atLevel?
    rw [List.reverse_cons, List.getElem?_append, List.length_reverse]
    split
    · rename_i hl
      simp [hl]
    · rename_i hl
      rw [ih]
      split
      · rfl
      · rename_i hlt
        rw [List.getElem?_eq_none (by simp; omega), List.getElem?_eq_none (by simp; omega)]

theorem length_modifyLevel (level : Nat) (g : Activation → Activation) (as : List Activation) :
    (modifyLevel level g as).length = as.length := by
  induction as with
  | nil => rfl
  | cons a below ih =>
    unfold modifyLevel
    split
    · rfl
    · rw [List.length_cons, List.length_cons, ih]

theorem length_dependOn (level : Nat) (as : List Activation) :
    (dependOn level as).length = as.length := by
  induction as with
  | nil => rfl
  | cons a below ih =>
    unfold dependOn
    split
    · rw [List.length_cons, List.length_cons, ih]
    · rfl

/-- An open loop has its head at this level. -/
def Headed (level : Nat) (as : List Activation) : Prop :=
  ∃ head, atLevel? level as = some head ∧ head.recursion.isSome

theorem Headed.lt (h : Headed level as) : level < as.length := by
  obtain ⟨head, hhead, -⟩ := h
  rw [atLevel?_eq] at hhead
  simpa using (List.getElem?_eq_some_iff.mp hhead).1

theorem headed_cons (hl : level < below.length) :
    Headed level (a :: below) ↔ Headed level below := by
  unfold Headed
  rw [atLevel?, if_neg (Nat.ne_of_gt hl)]

theorem headed_top (hl : below.length = level) :
    Headed level (a :: below) ↔ a.recursion.isSome := by
  simp [Headed, atLevel?, hl]

theorem Headed.modifyLevel (hg : ∀ a, a.recursion.isSome → (g a).recursion.isSome)
    (h : Headed d as) : Headed d (modifyLevel level g as) := by
  induction as with
  | nil => exact h
  | cons a below ih =>
    have hlt := h.lt
    rw [List.length_cons] at hlt
    unfold Machine.modifyLevel
    by_cases hd : d < below.length
    · have hbelow := (headed_cons hd).mp h
      split
      · exact (headed_cons hd).mpr hbelow
      · exact (headed_cons (by rwa [length_modifyLevel])).mpr (ih hbelow)
    · have htop := (headed_top (by omega)).mp h
      split
      · exact (headed_top (by omega)).mpr (hg a htop)
      · exact (headed_top (by rw [length_modifyLevel]; omega)).mpr htop

theorem Headed.dependOn (h : Headed d as) : Headed d (dependOn level as) := by
  induction as with
  | nil => exact h
  | cons a below ih =>
    have hlt := h.lt
    rw [List.length_cons] at hlt
    unfold Machine.dependOn
    split
    · by_cases hd : d < below.length
      · exact (headed_cons (by rwa [length_dependOn])).mpr (ih ((headed_cons hd).mp h))
      · have htop := (headed_top (by omega)).mp h
        exact (headed_top (by rw [length_dependOn]; omega)).mpr htop
    · exact h

/-- Summaries wait for the head at a level; the caller depends on it, unless it is that head. -/
def handDown (entries : List (SummaryKey × Summary)) (level : Nat) (m : Machine) : Machine :=
  { m with activations := modifyLevel level (Activation.deferAll entries) m.activations }.onTop
    fun a l => (if level + 1 < m.activations.length then a.dependOn level else a, l)

theorem headed_extendLoop (participants : List SummaryKey) (hl : level < as.length) :
    Headed level (modifyLevel level (·.extendLoop participants) as) := by
  induction as with
  | nil => cases hl
  | cons a below ih =>
    rw [List.length_cons] at hl
    unfold modifyLevel
    split
    · rename_i htop
      exact (headed_top htop).mpr rfl
    · have hlt : level < below.length := by omega
      exact (headed_cons (by rwa [length_modifyLevel])).mpr (ih hlt)

end Machine

/-! Activations and their frames. -/

namespace Trail

open Machine (Headed)

variable {level : Nat} {a b : Activation} {as below : List Activation} {f : Frame}
  {fs : List Frame} {serials : List Nat} {t : Trail}

/-- The serial number at a level is the same whatever stands on top. -/
theorem serial_of_below {n m : Nat} (h : serials.reverse[level]? = some n) :
    (m :: serials).reverse[level]? = some n ∧ level < serials.length := by
  have hl : level < serials.reverse.length := (List.getElem?_eq_some_iff.mp h).1
  rw [List.reverse_cons, List.getElem?_append_left hl]
  exact ⟨h, by simpa using hl⟩

/-- What an activation knows about the loops that its frame rests on. -/
structure Standing (below : List Activation) (serials : List Nat) (a : Activation) (f : Frame) :
    Prop where
  /-- The level that the activation depends on is at or below every head that it rests on. -/
  rests : ∀ n ∈ f.rests, ∀ level, serials.reverse[level]? = some n →
    ∃ d, a.dependency = some d ∧ d ≤ level
  headed : ∀ d, a.dependency = some d → Headed d below
  waiting : ∀ r ∈ f.pending, ∀ n ∈ r.rests, n ∉ serials
  pending : f.pending.map Record.entry = a.pending

/-- Every activation has its frame. -/
def Grounded : List Activation → List Frame → Prop
  | [], [] => True
  | a :: below, f :: fs => Standing below (fs.map Frame.serial) a f ∧ Grounded below fs
  | _, _ => False

theorem Grounded.length (h : Grounded as fs) : as.length = fs.length := by
  induction as generalizing fs with
  | nil => cases fs with
    | nil => rfl
    | cons => cases h
  | cons a below ih => cases fs with
    | nil => cases h
    | cons f fs => rw [List.length_cons, List.length_cons, ih h.2]

namespace Standing

/-- The context, the work and the call that waits do not matter. -/
theorem congr {a' : Activation} (h : Standing below serials a f)
    (hd : a'.dependency = a.dependency) (hr : a'.recursion = a.recursion) :
    Standing below serials a' f := by
  refine ⟨fun n hn level hl => hd ▸ h.rests n hn level hl, fun d hdep => h.headed d (hd ▸ hdep),
    h.waiting, ?_⟩
  rw [h.pending, Activation.pending, Activation.pending, hr]

theorem onto {below' : List Activation} (h : Standing below serials a f)
    (hb : ∀ d, Headed d below → Headed d below') : Standing below' serials a f :=
  ⟨h.rests, fun d hd => hb d (h.headed d hd), h.waiting, h.pending⟩

theorem dependOn (h : Standing below serials a f) (hl : Headed level below) :
    Standing below serials (a.dependOn level) f := by
  refine ⟨fun n hn j hj => ?_, fun d hd => ?_, h.waiting, h.pending⟩
  · obtain ⟨d, hdep, hle⟩ := h.rests n hn j hj
    refine ⟨min level d, ?_, Nat.le_trans (Nat.min_le_right _ _) hle⟩
    simp [Activation.dependOn, hdep]
  · cases hdep : a.dependency with
    | none =>
      simp only [Activation.dependOn, hdep, Option.elim_none, Option.some.injEq] at hd
      exact hd ▸ hl
    | some old =>
      simp only [Activation.dependOn, hdep, Option.elim_some, Option.some.injEq] at hd
      rcases Nat.le_total level old with hle | hle
      · rw [Nat.min_eq_left hle] at hd
        exact hd ▸ hl
      · rw [Nat.min_eq_right hle] at hd
        exact hd ▸ h.headed old hdep

theorem relyOn (h : Standing below serials a f) {ns : List Nat}
    (hn : ∀ n ∈ ns, ∀ level, serials.reverse[level]? = some n →
      ∃ d, a.dependency = some d ∧ d ≤ level) :
    Standing below serials a (f.relyOn ns) := by
  refine ⟨fun n hin level hl => ?_, h.headed, h.waiting, h.pending⟩
  rcases List.mem_append.mp hin with hin | hin
  · exact h.rests n hin level hl
  · exact hn n hin level hl

/-- What is handed to a head rests on nothing below it. -/
theorem await (h : Standing below serials a f) {records : List Record}
    (hr : a.recursion.isSome) (hn : ∀ r ∈ records, ∀ n ∈ r.rests, n ∉ serials) :
    Standing below serials (a.deferAll (records.map Record.entry)) (f.await records) := by
  refine ⟨h.rests, h.headed, fun r hin => ?_, ?_⟩
  · rcases List.mem_append.mp hin with hin | hin
    · exact h.waiting r hin
    · exact hn r hin
  · rw [Activation.pending_deferAll _ hr, ← h.pending]
    exact List.map_append

theorem dependency_le_dependOn (a : Activation) (level : Nat) :
    ∃ d, (a.dependOn level).dependency = some d ∧ d ≤ level := by
  cases hd : a.dependency with
  | none => exact ⟨level, by simp [Activation.dependOn, hd], Nat.le_refl _⟩
  | some old => exact ⟨min level old, by simp [Activation.dependOn, hd], Nat.min_le_left _ _⟩

end Standing

/-! What the moves do to a grounded stack. -/

namespace Grounded

/-- The provisional answer of the loop at a level: everything above the level depends on it. -/
theorem loop (h : Grounded as fs) (participants : List SummaryKey) (hl : level < as.length) :
    Grounded (Machine.modifyLevel level (·.extendLoop participants)
      (Machine.dependOn level as)) fs := by
  induction as generalizing fs with
  | nil => cases hl
  | cons a below ih =>
    cases fs with
    | nil => cases h
    | cons f fs =>
      rw [List.length_cons] at hl
      unfold Machine.dependOn
      split
      · rename_i hlt
        unfold Machine.modifyLevel
        rw [if_neg (by rw [Machine.length_dependOn]; omega)]
        refine ⟨?_, ih h.2 hlt⟩
        refine (h.1.onto fun d hd => ?_).dependOn ?_
        · exact (hd.dependOn).modifyLevel fun _ _ => rfl
        · exact Machine.headed_extendLoop _ (by rwa [Machine.length_dependOn])
      · unfold Machine.modifyLevel
        rw [if_pos (by omega)]
        refine ⟨⟨h.1.rests, h.1.headed, h.1.waiting, ?_⟩, h.2⟩
        rw [h.1.pending, Activation.pending_extendLoop]

/-- The topmost activation rests on the head whose answer it was given. -/
theorem rely (h : Grounded (a :: below) (f :: fs)) (participants : List SummaryKey)
    (hl : level < (a :: below).length) (hn : ((f :: fs).map Frame.serial).Nodup) :
    Grounded (Machine.modifyLevel level (·.extendLoop participants)
      (Machine.dependOn level (a :: below)))
      (f.relyOn ((f :: fs).map Frame.serial).reverse[level]?.toList :: fs) := by
  have hloop := h.loop participants hl
  -- A head below the topmost activation is at the level that was given.
  have hsame : ∀ n ∈ ((f :: fs).map Frame.serial).reverse[level]?.toList, ∀ j,
      (fs.map Frame.serial).reverse[j]? = some n → j = level := by
    intro n hin j hj
    obtain ⟨hj, -⟩ := @serial_of_below j (fs.map Frame.serial) n f.serial hj
    have hlevel := Option.mem_toList.mp hin
    exact (List.getElem?_inj (List.getElem?_eq_some_iff.mp hj).1
      (List.nodup_reverse.mpr hn)).mp (hj.trans hlevel.symm)
  unfold Machine.dependOn at hloop ⊢
  split at hloop
  · rename_i hlt
    rw [if_pos hlt]
    unfold Machine.modifyLevel at hloop ⊢
    rw [if_neg (by rw [Machine.length_dependOn]; omega)] at hloop ⊢
    refine ⟨hloop.1.relyOn fun n hin j hj => ?_, hloop.2⟩
    rw [hsame n hin j hj]
    exact Standing.dependency_le_dependOn a level
  · rename_i hlt
    rw [if_neg hlt]
    unfold Machine.modifyLevel at hloop ⊢
    rw [List.length_cons] at hl
    rw [if_pos (by omega)] at hloop ⊢
    refine ⟨hloop.1.relyOn fun n hin j hj => ?_, hloop.2⟩
    -- The loop of the topmost activation itself is not below it.
    have hj' := (@serial_of_below j (fs.map Frame.serial) n f.serial hj).2
    rw [hsame n hin j hj, List.length_map, ← h.2.length] at hj'
    exact absurd hj' hlt

/-- Summaries are handed to the head at a level. -/
theorem await (h : Grounded as fs) (hh : Headed level as) {records : List Record}
    (hn : ∀ r ∈ records, ∀ n ∈ r.rests, ∀ j, (fs.map Frame.serial).reverse[j]? = some n →
      level ≤ j) :
    Grounded (Machine.modifyLevel level (Activation.deferAll (records.map Record.entry)) as)
      (modifyLevel level (·.await records) fs) := by
  induction as generalizing fs with
  | nil => cases hh.lt
  | cons a below ih =>
    cases fs with
    | nil => cases h
    | cons f fs =>
      have hlt := hh.lt
      rw [List.length_cons] at hlt
      unfold Machine.modifyLevel modifyLevel
      rw [← h.2.length]
      split
      · rename_i htop
        refine ⟨h.1.await ((Machine.headed_top htop).mp hh) fun r hr n hin hmem => ?_, h.2⟩
        obtain ⟨j, hj⟩ := List.mem_iff_getElem?.mp (List.mem_reverse.mpr hmem)
        obtain ⟨hj, hjlt⟩ := @serial_of_below j (fs.map Frame.serial) n f.serial hj
        have hle := hn r hr n hin j hj
        rw [List.length_map, ← h.2.length] at hjlt
        omega
      · have hbelow : level < below.length := by omega
        have hh' := (Machine.headed_cons hbelow).mp hh
        refine ⟨?_, ih h.2 hh' fun r hr n hin j hj => ?_⟩
        · rw [map_serial_await]
          exact h.1.onto fun d hd => hd.modifyLevel Activation.isSome_deferAll
        · exact hn r hr n hin j (serial_of_below hj).1

theorem onTop {m : Machine} (h : Grounded m.activations fs)
    {g : Activation → Ledger → Activation × Ledger}
    (hg : ∀ a l, (g a l).1.dependency = a.dependency ∧ (g a l).1.recursion = a.recursion) :
    Grounded (m.onTop g).activations fs := by
  obtain ⟨_ | ⟨a, below⟩, l⟩ := m
  · exact h
  · cases fs with
    | nil => cases h
    | cons f fs => exact ⟨h.1.congr (hg a l).1 (hg a l).2, h.2⟩

theorem resume {m : Machine} (h : Grounded m.activations fs) (summary : Summary) :
    Grounded (m.resume summary).activations fs := by
  refine h.onTop fun a l => ?_
  split
  · exact ⟨rfl, rfl⟩
  · obtain ⟨⟨c, hc⟩, -⟩ := Machine.answer_shape { a with waiting := none } l _ summary false
    rw [hc]
    exact ⟨rfl, rfl⟩

/-- The topmost frame rests on more, when its activation knows of it. -/
theorem relyOnTop (h : Grounded as fs) {ns : List Nat}
    (hn : ∀ n ∈ ns, ∀ j, j + 1 < as.length → (fs.map Frame.serial).reverse[j]? = some n →
      ∃ a below d, as = a :: below ∧ a.dependency = some d ∧ d ≤ j) :
    Grounded as (fs.modifyHead (·.relyOn ns)) := by
  cases as with
  | nil => cases fs with
    | nil => trivial
    | cons => cases h
  | cons a below =>
    cases fs with
    | nil => cases h
    | cons f fs =>
      refine ⟨h.1.relyOn fun n hin j hj => ?_, h.2⟩
      obtain ⟨hj', hlt⟩ := @serial_of_below j (fs.map Frame.serial) n f.serial hj
      rw [List.length_map, ← h.2.length] at hlt
      obtain ⟨x, xs, d, hx, hd, hle⟩ := hn n hin j (by rw [List.length_cons]; omega) hj'
      cases hx
      exact ⟨d, hd, hle⟩

theorem map_entry_records (h : Grounded (a :: below) (f :: fs)) :
    (f.records a).map Record.entry = a.pending ++ [(a.key, a.summary)] := by
  rw [← h.1.pending]
  exact List.map_append

/-- What an activation leaves behind rests on no head below the level that it depends on. -/
theorem le_of_records (h : Grounded (a :: below) (f :: fs)) {r : Record} (hr : r ∈ f.records a)
    {n j : Nat} (hn : n ∈ r.rests) (hj : (fs.map Frame.serial).reverse[j]? = some n) :
    ∃ d, a.dependency = some d ∧ d ≤ j := by
  rcases List.mem_append.mp hr with hr | hr
  · have hmem : n ∈ fs.map Frame.serial := List.mem_reverse.mp (List.mem_of_getElem? hj)
    exact absurd hmem (h.1.waiting r hr n hn)
  · rw [List.mem_singleton.mp hr] at hn
    exact h.1.rests n hn j hj

/-- An activation that depends on no level of the stack leaves nothing behind that rests on it. -/
theorem records_closed (h : Grounded (a :: below) (f :: fs))
    (hd : a.dependency.filter (· < fs.length) = none) :
    ∀ r ∈ f.records a, ∀ n ∈ r.rests, n ∉ fs.map Frame.serial := by
  intro r hr n hn hmem
  obtain ⟨j, hj⟩ := List.mem_iff_getElem?.mp (List.mem_reverse.mpr hmem)
  obtain ⟨d, hdep, hle⟩ := h.le_of_records hr hn hj
  have hlt : j < fs.length := by simpa using (List.getElem?_eq_some_iff.mp hj).1
  simp only [hdep, Option.filter_some, ite_eq_right_iff, decide_eq_true_eq] at hd
  cases hd (by omega)

/-- The caller of an activation that depends on no level of the stack rests on nothing new. -/
theorem final (h : Grounded (a :: below) (f :: fs))
    (hd : a.dependency.filter (· < fs.length) = none) :
    Grounded below (fs.modifyHead (·.relyOn f.rests)) := by
  refine h.2.relyOnTop fun n hn j _ hj => ?_
  have hmem : n ∈ fs.map Frame.serial := List.mem_reverse.mp (List.mem_of_getElem? hj)
  exact absurd hmem (h.records_closed hd _ f.own_mem_records n hn)

/-- The caller of an activation that depends on a level depends on it as well, unless it heads the
loop there. -/
theorem handedDown (h : Grounded (a :: below) (f :: fs)) (hd : a.dependency = some level)
    (l : Ledger) :
    Grounded (Machine.handDown ((f.records a).map Record.entry) level ⟨below, l⟩).activations
      ((modifyLevel level (·.await (f.records a)) fs).modifyHead (·.relyOn f.rests)) := by
  have hle : ∀ r ∈ f.records a, ∀ n ∈ r.rests, ∀ j,
      (fs.map Frame.serial).reverse[j]? = some n → level ≤ j := by
    intro r hr n hn j hj
    obtain ⟨d, hd', hle⟩ := h.le_of_records hr hn hj
    rw [hd] at hd'
    cases hd'
    exact hle
  have hhead := h.1.headed level hd
  have hwaits := h.2.await hhead hle
  have hlength := Machine.length_modifyLevel level
    (Activation.deferAll ((f.records a).map Record.entry)) below
  unfold Machine.handDown Machine.onTop
  cases hdeferred : Machine.modifyLevel level
      (Activation.deferAll ((f.records a).map Record.entry)) below with
  | nil =>
    rw [hdeferred, List.length_nil] at hlength
    have := hhead.lt
    omega
  | cons b rest =>
    rw [hdeferred] at hwaits hlength
    rw [List.length_cons] at hlength
    have hheaded : Headed level (b :: rest) :=
      hdeferred ▸ hhead.modifyLevel Activation.isSome_deferAll
    have htop : Grounded ((if level + 1 < below.length then b.dependOn level else b) :: rest)
        (modifyLevel level (·.await (f.records a)) fs) := by
      cases hfs : modifyLevel level (·.await (f.records a)) fs with
      | nil =>
        rw [hfs] at hwaits
        cases hwaits
      | cons g gs =>
        rw [hfs] at hwaits
        split
        · have hlt : level < rest.length := by omega
          exact ⟨hwaits.1.dependOn ((Machine.headed_cons hlt).mp hheaded), hwaits.2⟩
        · exact hwaits
    refine htop.relyOnTop fun n hn j hj hserial => ?_
    rw [map_serial_await] at hserial
    have hlevel := hle _ f.own_mem_records n hn j hserial
    rw [List.length_cons] at hj
    obtain ⟨d, hdep, hle'⟩ := Standing.dependency_le_dependOn b level
    rw [if_pos (by omega)]
    exact ⟨_, _, d, rfl, hdep, Nat.le_trans hle' hlevel⟩

end Grounded

end Trail

end SinkTrace
