/-
  Two threads of routines over one shared store.

  A schedule picks the thread that executes its next instruction. A thread is inside cell `a`
  while its current routine has read `a` and has still to write it. If the two threads are
  never inside the same cell (`ExclusiveAlong`) and every routine is `TwoPhase` (no read after
  its first write, and it writes exactly what it reads), every finished schedule leaves the
  store of a serial run that keeps the order of each thread (`serializable_of_exclusive`).

  The serial run executes a routine at its first write. `V` below is the store of that run so
  far; a routine that has started to write is ahead of the shared store in `V`, by the cells
  it still has to write (`ThreadInv`, `pend`).
-/
import SmartWarehouse.Lib.Routine
import Mathlib.Data.Fintype.Basic

namespace SmartWarehouse.Lib

/-- `cs` merges `as` and `bs`, keeping the order of each. -/
inductive Interleaving {α : Type} : List α → List α → List α → Prop where
  | nil : Interleaving [] [] []
  | left {as bs cs : List α} (a : α) : Interleaving as bs cs → Interleaving (a :: as) bs (a :: cs)
  | right {as bs cs : List α} (b : α) : Interleaving as bs cs → Interleaving as (b :: bs) (b :: cs)

namespace Interleaving

variable {α : Type} {as bs cs : List α}

theorem symm (h : Interleaving as bs cs) : Interleaving bs as cs := by
  induction h with
  | nil => exact nil
  | left a _ ih => exact right a ih
  | right b _ ih => exact left b ih

theorem append_left (h : Interleaving as bs cs) (a : α) :
    Interleaving (as ++ [a]) bs (cs ++ [a]) := by
  induction h with
  | nil => exact left a nil
  | left a' _ ih => exact left a' ih
  | right b _ ih => exact right b ih

/-- A merge of two mapped lists is the map of a merge. -/
theorem of_map {β : Type} {f : α → β} {xs ys ds : List β} (h : Interleaving xs ys ds) :
    ∀ {as bs : List α}, as.map f = xs → bs.map f = ys →
      ∃ cs, Interleaving as bs cs ∧ ds = cs.map f := by
  induction h with
  | nil =>
    intro as bs ha hb
    rw [List.map_eq_nil_iff] at ha hb
    subst ha hb
    exact ⟨[], .nil, rfl⟩
  | left x _ ih =>
    intro as bs ha hb
    obtain ⟨a, as, rfl, rfl, has⟩ := List.map_eq_cons_iff.mp ha
    obtain ⟨cs, hcs, rfl⟩ := ih has hb
    exact ⟨a :: cs, .left a hcs, rfl⟩
  | right y _ ih =>
    intro as bs ha hb
    obtain ⟨b, bs, rfl, rfl, hbs⟩ := List.map_eq_cons_iff.mp hb
    obtain ⟨cs, hcs, rfl⟩ := ih ha hbs
    exact ⟨b :: cs, .right b hcs, rfl⟩

end Interleaving

variable {Addr Val : Type}

/-! ## Two-phase routines -/

/-- The cells read after the first write. -/
def readsAfterWrite : Routine Addr Val → List Addr
  | [] => []
  | .read _ :: c => readsAfterWrite c
  | .edit _ _ :: c => readsAfterWrite c
  | .write _ :: c => reads c

/-- A routine that writes nothing, or reads before it writes and writes exactly the cells it
    reads. -/
def TwoPhase (c : Routine Addr Val) : Prop :=
  writes c = [] ∨ (readsAfterWrite c = [] ∧ reads c ⊆ writes c ∧ writes c ⊆ reads c)

theorem readsAfterWrite_append (pre c : Routine Addr Val) (h : writes pre = []) :
    readsAfterWrite (pre ++ c) = readsAfterWrite c := by
  induction pre with
  | nil => rfl
  | cons i pre ih => cases i <;> simp_all [writes, readsAfterWrite]

/-! ## Threads -/

/-- A thread: what is left of its current routine, its local variables, the cells that routine
    has read, and the routines still to run. -/
structure Thread (Addr Val : Type) where
  rest : Routine Addr Val
  regs : Addr → Val
  seen : List Addr
  queue : List (Routine Addr Val)

/-- The thread is between its read and its write of `a`. -/
def Thread.Inside (t : Thread Addr Val) (a : Addr) : Prop :=
  a ∈ t.seen ∧ a ∈ writes t.rest

structure System (Addr Val : Type) where
  left : Thread Addr Val
  right : Thread Addr Val
  store : Addr → Val

def System.Exclusive (y : System Addr Val) : Prop :=
  ∀ a, ¬ (y.left.Inside a ∧ y.right.Inside a)

def System.Finished (y : System Addr Val) : Prop :=
  (y.left.rest = [] ∧ y.left.queue = []) ∧ (y.right.rest = [] ∧ y.right.queue = [])

variable [DecidableEq Addr] [Inhabited Val]

def Thread.start (queue : List (Routine Addr Val)) : Thread Addr Val :=
  ⟨[], fun _ => default, [], queue⟩

/-- The next instruction of the current routine, or the start of the next routine. -/
def Thread.step (t : Thread Addr Val) (s : Addr → Val) : Thread Addr Val × (Addr → Val) :=
  match t.rest, t.queue with
  | i :: c, q =>
    let m := i.exec ⟨t.regs, s⟩
    (⟨c, m.regs, t.seen ++ reads [i], q⟩, m.store)
  | [], c :: q => (⟨c, fun _ => default, [], q⟩, s)
  | [], [] => (t, s)

def System.start (as bs : List (Routine Addr Val)) (s : Addr → Val) : System Addr Val :=
  ⟨Thread.start as, Thread.start bs, s⟩

/-- One step of the left thread (`true`) or of the right one. -/
def System.step (y : System Addr Val) : Bool → System Addr Val
  | true => ⟨(y.left.step y.store).1, y.right, (y.left.step y.store).2⟩
  | false => ⟨y.left, (y.right.step y.store).1, (y.right.step y.store).2⟩

def System.run (y : System Addr Val) (sched : List Bool) : System Addr Val :=
  sched.foldl System.step y

/-- No state of the schedule has both threads inside one cell. -/
def System.ExclusiveAlong (y : System Addr Val) : List Bool → Prop
  | [] => y.Exclusive
  | b :: sched => y.Exclusive ∧ (y.step b).ExclusiveAlong sched

omit [Inhabited Val] in
instance (t : Thread Addr Val) (a : Addr) : Decidable (t.Inside a) :=
  inferInstanceAs (Decidable (a ∈ t.seen ∧ a ∈ writes t.rest))

omit [Inhabited Val] in
instance [Fintype Addr] (y : System Addr Val) : Decidable y.Exclusive :=
  inferInstanceAs (Decidable (∀ a, ¬ (y.left.Inside a ∧ y.right.Inside a)))

instance decExclusiveAlong [Fintype Addr] : (y : System Addr Val) → (sched : List Bool) →
    Decidable (y.ExclusiveAlong sched)
  | y, [] => inferInstanceAs (Decidable y.Exclusive)
  | y, _ :: sched =>
    @instDecidableAnd _ _ (inferInstanceAs (Decidable y.Exclusive)) (decExclusiveAlong _ sched)

omit [DecidableEq Addr] [Inhabited Val] in
theorem System.Exclusive.symm {t o : Thread Addr Val} {s : Addr → Val}
    (h : System.Exclusive ⟨t, o, s⟩) : System.Exclusive ⟨o, t, s⟩ :=
  fun a ha => h a ha.symm

theorem System.ExclusiveAlong.head {y : System Addr Val} {sched : List Bool}
    (h : y.ExclusiveAlong sched) : y.Exclusive := by
  cases sched with
  | nil => exact h
  | cons b sched => exact h.1

/-! ## The invariant of one thread -/

/-- A thread against the serial store `V`: it has run `done` of its routines `all`, and the
    cells `pend` of the last one are still to be written. Either its current routine has run
    in `V` (`committed`), or it has only read so far and its local variables are those of a
    serial run from `V` (`reading`). -/
inductive ThreadInv (V : Addr → Val) (all done : List (Routine Addr Val)) (pend : List Addr)
    (t : Thread Addr Val) : Prop where
  | committed (hall : all = done ++ t.queue) (hpend : pend = writes t.rest)
      (hrw : reads t.rest = [] ∨ writes t.rest = []) (hseen : ∀ a ∈ pend, a ∈ t.seen)
      (hV : ∀ s, ∀ a ∈ pend, (exec ⟨t.regs, s⟩ t.rest).store a = V a)
  | reading (c pre : Routine Addr Val) (hall : all = done ++ c :: t.queue) (hpend : pend = [])
      (hc : c = pre ++ t.rest) (hw : writes pre = []) (hne : writes c ≠ [])
      (hseen : ∀ a, a ∈ t.seen ↔ a ∈ reads pre)
      (hregs : ∀ a ∈ reads pre, t.regs a = (exec ⟨fun _ => default, V⟩ pre).regs a)

/-- Both threads against `V`: the shared store is `V` but for the pending cells. -/
structure Inv (V : Addr → Val) (as doneA : List (Routine Addr Val)) (pendA : List Addr)
    (t : Thread Addr Val) (bs doneB : List (Routine Addr Val)) (pendB : List Addr)
    (o : Thread Addr Val) (s : Addr → Val) : Prop where
  left : ThreadInv V as doneA pendA t
  right : ThreadInv V bs doneB pendB o
  store : ∀ a, a ∉ pendA → a ∉ pendB → s a = V a

variable {V s : Addr → Val} {as bs doneA doneB : List (Routine Addr Val)}
  {pendA pendB : List Addr} {t o : Thread Addr Val}

theorem Inv.symm (h : Inv V as doneA pendA t bs doneB pendB o s) :
    Inv V bs doneB pendB o as doneA pendA t s :=
  ⟨h.right, h.left, fun a ha hb => h.store a hb ha⟩

/-- Pending cells are cells the thread is inside. -/
theorem ThreadInv.inside_of_pend (h : ThreadInv V as doneA pendA t) {a : Addr}
    (ha : a ∈ pendA) : t.Inside a := by
  cases h with
  | committed _ hpend _ hseen _ => exact ⟨hseen a ha, hpend ▸ ha⟩
  | reading c pre _ hpend => simp [hpend] at ha

/-- The other thread may change the serial store on every cell this thread is not inside. -/
theorem ThreadInv.congr_store (h : ThreadInv V as doneA pendA t) (h2 : ∀ c ∈ as, TwoPhase c)
    {V' : Addr → Val} (hV' : ∀ a, t.Inside a → V' a = V a) : ThreadInv V' as doneA pendA t := by
  have hin := fun a ha => h.inside_of_pend (a := a) ha
  cases h with
  | committed hall hpend hrw hseen hV =>
    exact .committed hall hpend hrw hseen fun s a ha => by rw [hV s a ha, hV' a (hin a ha)]
  | reading c pre hall hpend hc hw hne hseen hregs =>
    refine .reading c pre hall hpend hc hw hne hseen fun a ha => ?_
    rw [hregs a ha]
    refine exec_regs_congr pre _ _ hw (hV' a ⟨(hseen a).mpr ha, ?_⟩).symm rfl
    obtain h0 | ⟨-, hrd, -⟩ := h2 c (by simp [hall])
    · exact absurd h0 hne
    · have : a ∈ writes c := hrd (by simp [hc, ha])
      simpa [hc, hw] using this

/-! ## One step -/

/-- What one step of `t` does to the serial run: nothing, or one more routine of `t`. -/
def Advance (V V' : Addr → Val) (done done' : List (Routine Addr Val)) (t' o : Thread Addr Val)
    (as bs doneB : List (Routine Addr Val)) (pendB : List Addr) (s' : Addr → Val) : Prop :=
  ((V' = V ∧ done' = done) ∨ ∃ c, V' = run V c ∧ done' = done ++ [c]) ∧
    ∃ pend', Inv V' as done' pend' t' bs doneB pendB o s'

/-- Starting the next routine. A routine that writes nothing runs in the serial store at
    once. -/
theorem advance_load {c : Routine Addr Val} {q : List (Routine Addr Val)}
    (h : Inv V as doneA pendA t bs doneB pendB o s) (hr : t.rest = []) (hq : t.queue = c :: q) :
    ∃ V' done', Advance V V' doneA done' ⟨c, fun _ => default, [], q⟩ o as bs doneB pendB s := by
  obtain ⟨hl, ho, hs⟩ := h
  cases hl with
  | reading c' pre hall hpend hc hw hne =>
    exact absurd (by simpa [hr, hc] using hw) hne
  | committed hall hpend hrw hseen hV =>
    have hp : pendA = [] := by simp [hpend, hr, writes]
    have hs' : ∀ a, a ∉ ([] : List Addr) → a ∉ pendB → s a = V a := by simpa [hp] using hs
    by_cases hw : writes c = []
    · have hrun : run V c = V := exec_store_of_writes_nil c _ hw
      refine ⟨V, doneA ++ [c], .inr ⟨c, hrun.symm, rfl⟩, [], ⟨?_, ho, hs'⟩⟩
      exact .committed (by simp [hall, hq]) hw.symm (.inr hw) (by simp) (by simp)
    · refine ⟨V, doneA, .inl ⟨rfl, rfl⟩, [], ⟨?_, ho, hs'⟩⟩
      exact .reading c [] (by simp [hall, hq]) rfl rfl rfl hw (by simp [reads]) (by simp [reads])

/-- A step of a thread that has already started to write (or never will). -/
theorem advance_committed {i : Instr Addr Val} {c : Routine Addr Val}
    (hr : t.rest = i :: c) (hall : as = doneA ++ t.queue) (hpend : pendA = writes t.rest)
    (hrw : reads t.rest = [] ∨ writes t.rest = []) (hseen : ∀ a ∈ pendA, a ∈ t.seen)
    (hV : ∀ s, ∀ a ∈ pendA, (exec ⟨t.regs, s⟩ t.rest).store a = V a)
    (ho : ThreadInv V bs doneB pendB o) (hs : ∀ a, a ∉ pendA → a ∉ pendB → s a = V a) :
    Advance V V doneA doneA
      ⟨c, (i.exec ⟨t.regs, s⟩).regs, t.seen ++ reads [i], t.queue⟩ o as bs doneB pendB
      (i.exec ⟨t.regs, s⟩).store := by
  refine ⟨.inl ⟨rfl, rfl⟩, ?_⟩
  rw [hr] at hpend hrw hV
  cases i with
  | read a =>
    have hw : writes c = [] := by simpa [reads, writes] using hrw
    have hp : pendA = [] := by simpa [writes, hw] using hpend
    subst hp
    exact ⟨[], .committed hall hw.symm (.inr hw) (by simp) (by simp), ho, hs⟩
  | edit a f =>
    refine ⟨pendA, .committed hall hpend hrw (fun b hb => by simp [hseen b hb]) ?_, ho, hs⟩
    intro s' b hb
    exact hV s' b hb
  | write a =>
    have hrd : reads c = [] := by simpa [reads, writes] using hrw
    have hsub : ∀ b ∈ writes c, b ∈ pendA := fun b hb => by simp [hpend, writes, hb]
    refine ⟨writes c, .committed hall rfl (.inl hrd) (fun b hb => by simp [hseen b (hsub b hb)]) ?_,
      ho, ?_⟩
    · intro s' b hb
      have := hV s' b (hsub b hb)
      rw [← this, exec_cons]
      exact exec_store_of_mem_writes c _ _ hrd hb rfl
    · intro b hb hb'
      by_cases hba : b = a
      · subst hba
        have := hV s b (by simp [hpend, writes])
        rwa [exec_cons, exec_store_of_not_mem_writes c _ hb] at this
      · have : s b = V b := hs b (by simp [hpend, writes, hba, hb]) hb'
        simpa [Instr.exec, Function.update_of_ne hba] using this

/-- A read by a thread that has not written yet. The cell is not pending in the other thread:
    both would be inside it after the read. -/
theorem advance_read {a : Addr} {c pre d : Routine Addr Val} (hall : as = doneA ++ d :: t.queue)
    (hd : d = pre ++ .read a :: c) (hw : writes pre = []) (hne : writes d ≠ [])
    (hseen : ∀ a, a ∈ t.seen ↔ a ∈ reads pre)
    (hregs : ∀ a ∈ reads pre, t.regs a = (exec ⟨fun _ => default, V⟩ pre).regs a)
    (h2 : ∀ c ∈ as, TwoPhase c) (ho : ThreadInv V bs doneB pendB o)
    (hs : ∀ a, a ∉ pendB → s a = V a)
    (hex : ∀ b, ¬ (b ∈ t.seen ++ [a] ∧ b ∈ writes c ∧ o.Inside b)) :
    Advance V V doneA doneA ⟨c, Function.update t.regs a (s a), t.seen ++ [a], t.queue⟩ o as bs
      doneB pendB s := by
  refine ⟨.inl ⟨rfl, rfl⟩, [], .reading d (pre ++ [.read a]) hall rfl (by simp [hd])
    (by simp [hw, writes]) hne (fun b => by simp [hseen, reads]) ?_, ho, fun b _ => hs b⟩
  have hac : a ∈ writes c := by
    obtain h0 | ⟨-, hrd, -⟩ := h2 d (by simp [hall])
    · exact absurd h0 hne
    · have : a ∈ writes d := hrd (by simp [hd, reads])
      simpa [hd, hw, writes] using this
  have hsa : s a = V a := hs a fun hp => hex a ⟨by simp, hac, ho.inside_of_pend hp⟩
  have hpre := exec_store_of_writes_nil pre ⟨fun _ => default, V⟩ hw
  intro b hb
  by_cases hba : b = a
  · subst hba
    simp [exec_append, Instr.exec, hsa, hpre]
  · have hb' : b ∈ reads pre := by simpa [reads, hba] using hb
    simpa [exec_append, Instr.exec, Function.update_of_ne hba] using hregs b hb'

/-- The first write of a routine: the routine runs in the serial store. -/
theorem advance_first_write {a : Addr} {c pre d : Routine Addr Val}
    (hall : as = doneA ++ d :: t.queue) (hd : d = pre ++ .write a :: c) (hw : writes pre = [])
    (hne : writes d ≠ []) (hseen : ∀ a, a ∈ t.seen ↔ a ∈ reads pre)
    (hregs : ∀ a ∈ reads pre, t.regs a = (exec ⟨fun _ => default, V⟩ pre).regs a)
    (h2a : ∀ c ∈ as, TwoPhase c) (h2b : ∀ c ∈ bs, TwoPhase c)
    (ho : ThreadInv V bs doneB pendB o) (hs : ∀ a, a ∉ pendB → s a = V a)
    (hex : ∀ b, ¬ (b ∈ t.seen ∧ b ∈ writes (.write a :: c) ∧ o.Inside b)) :
    Advance V (run V d) doneA (doneA ++ [d]) ⟨c, t.regs, t.seen, t.queue⟩ o as bs doneB pendB
      (Function.update s a (t.regs a)) := by
  have hpre := exec_store_of_writes_nil pre ⟨fun _ => default, V⟩ hw
  have hwd : writes d = a :: writes c := by simp [hd, hw, writes]
  obtain h0 | ⟨hraw, -, hwr⟩ := h2a d (by simp [hall])
  · exact absurd h0 hne
  have hrc : reads c = [] := by
    simpa [hd, readsAfterWrite_append pre _ hw, readsAfterWrite] using hraw
  have hrp : ∀ b ∈ writes d, b ∈ reads pre := fun b hb => by
    simpa [hd, reads, hrc] using hwr hb
  have hrun : run V d = (exec (exec ⟨fun _ => default, V⟩ pre) (.write a :: c)).store := by
    rw [run, hd, exec_append]
  have hkeep : ∀ b, b ∉ writes d → run V d b = V b := fun b hb =>
    exec_store_of_not_mem_writes d _ hb
  refine ⟨.inr ⟨d, rfl, rfl⟩, writes c, ?_, ?_, ?_⟩
  · refine .committed (by simp [hall]) rfl (.inl hrc)
      (fun b hb => (hseen b).mpr (hrp b (by simp [hwd, hb]))) fun s' b hb => ?_
    rw [hrun, exec_cons]
    exact exec_store_of_mem_writes c _ _ hrc hb (hregs b (hrp b (by simp [hwd, hb])))
  · refine ho.congr_store h2b fun b hb => hkeep b fun hbd => hex b ⟨?_, ?_, hb⟩
    · exact (hseen b).mpr (hrp b hbd)
    · simpa [writes, hwd] using hbd
  · intro b hb hb'
    by_cases hba : b = a
    · subst hba
      have hval : run V d b = (exec ⟨fun _ => default, V⟩ pre).regs b := by
        rw [hrun, exec_cons, exec_store_of_not_mem_writes c _ hb]
        simp [Instr.exec]
      rw [hval, ← hregs b (hrp b (by simp [hwd]))]
      simp
    · rw [hkeep b (by simp [hwd, hba, hb]), Function.update_of_ne hba]
      exact hs b hb'

theorem advance_step (h : Inv V as doneA pendA t bs doneB pendB o s)
    (h2a : ∀ c ∈ as, TwoPhase c) (h2b : ∀ c ∈ bs, TwoPhase c)
    (hex : ∀ a, ¬ (t.Inside a ∧ o.Inside a))
    (hex' : ∀ a, ¬ ((t.step s).1.Inside a ∧ o.Inside a)) :
    ∃ V' done', Advance V V' doneA done' (t.step s).1 o as bs doneB pendB (t.step s).2 := by
  rcases hr : t.rest with _ | ⟨i, c⟩
  · rcases hq : t.queue with _ | ⟨c, q⟩
    · refine ⟨V, doneA, .inl ⟨rfl, rfl⟩, pendA, ?_⟩
      simpa [Thread.step, hr, hq] using h
    · simpa [Thread.step, hr, hq] using advance_load h hr hq
  · obtain ⟨hl, ho, hs⟩ := h
    cases hl with
    | committed hall hpend hrw hseen hV =>
      refine ⟨V, doneA, ?_⟩
      simpa [Thread.step, hr] using advance_committed hr hall hpend hrw hseen hV ho hs
    | reading d pre hall hpend hd hw hne hseen hregs =>
      have hs' : ∀ a, a ∉ pendB → s a = V a := fun a => hs a (by simp [hpend])
      rw [hr] at hd
      cases i with
      | read a =>
        refine ⟨V, doneA, ?_⟩
        have hex'' : ∀ b, ¬ (b ∈ t.seen ++ [a] ∧ b ∈ writes c ∧ o.Inside b) := fun b hb =>
          hex' b (by simpa [Thread.step, hr, Thread.Inside, reads, and_assoc] using hb)
        simpa [Thread.step, hr, reads, Instr.exec] using
          advance_read hall hd hw hne hseen hregs h2a ho hs' hex''
      | edit a f =>
        refine ⟨V, doneA, .inl ⟨rfl, rfl⟩, [], ?_, ho, fun b _ => by
          simpa [Thread.step, hr, Instr.exec] using hs' b⟩
        simp only [Thread.step, hr, Instr.exec, reads, List.append_nil]
        refine .reading d (pre ++ [.edit a f]) hall rfl (by simp [hd]) (by simp [hw, writes]) hne
          (fun b => by simp [hseen, reads]) fun b hb => ?_
        have hb' : b ∈ reads pre := by simpa [reads] using hb
        by_cases hba : b = a
        · subst hba
          simp [exec_append, Instr.exec, hregs b hb']
        · simpa [exec_append, Instr.exec, Function.update_of_ne hba] using hregs b hb'
      | write a =>
        refine ⟨run V d, doneA ++ [d], ?_⟩
        have hex'' : ∀ b, ¬ (b ∈ t.seen ∧ b ∈ writes (.write a :: c) ∧ o.Inside b) := fun b hb =>
          hex b (by simpa [Thread.Inside, hr, and_assoc] using hb)
        simpa [Thread.step, hr, reads, Instr.exec] using
          advance_first_write hall hd hw hne hseen hregs h2a h2b ho hs' hex''

/-! ## Whole schedules -/

/-- The serial run behind a state of the schedule. -/
def Serial (as bs : List (Routine Addr Val)) (s₀ : Addr → Val) (y : System Addr Val) : Prop :=
  ∃ doneA doneB L pendA pendB, Interleaving doneA doneB L ∧
    Inv (L.foldl run s₀) as doneA pendA y.left bs doneB pendB y.right y.store

theorem serial_start (as bs : List (Routine Addr Val)) (s : Addr → Val) :
    Serial as bs s (System.start as bs s) := by
  refine ⟨[], [], [], [], [], .nil, ?_, ?_, fun _ _ _ => rfl⟩
  · exact .committed rfl rfl (.inl rfl) (by simp) (by simp)
  · exact .committed rfl rfl (.inl rfl) (by simp) (by simp)

theorem serial_step {s₀ : Addr → Val} {y : System Addr Val} {b : Bool} (h : Serial as bs s₀ y)
    (h2a : ∀ c ∈ as, TwoPhase c) (h2b : ∀ c ∈ bs, TwoPhase c) (hex : y.Exclusive)
    (hex' : (y.step b).Exclusive) : Serial as bs s₀ (y.step b) := by
  obtain ⟨doneA, doneB, L, pendA, pendB, hL, hinv⟩ := h
  cases b with
  | true =>
    obtain ⟨V', done', hadv, pend', hinv'⟩ := advance_step hinv h2a h2b hex hex'
    rcases hadv with ⟨rfl, rfl⟩ | ⟨c, rfl, rfl⟩
    · exact ⟨_, _, L, _, _, hL, hinv'⟩
    · refine ⟨_, doneB, L ++ [c], pend', pendB, hL.append_left c, ?_⟩
      rw [List.foldl_append]
      exact hinv'
  | false =>
    obtain ⟨V', done', hadv, pend', hinv'⟩ := advance_step hinv.symm h2b h2a
      (fun a ha => hex a ha.symm) (fun a ha => hex' a ha.symm)
    rcases hadv with ⟨rfl, rfl⟩ | ⟨c, rfl, rfl⟩
    · exact ⟨_, _, L, _, _, hL, hinv'.symm⟩
    · refine ⟨doneA, _, L ++ [c], pendA, pend', (hL.symm.append_left c).symm, ?_⟩
      rw [List.foldl_append]
      exact hinv'.symm

theorem serial_run {s₀ : Addr → Val} {y : System Addr Val} {sched : List Bool}
    (h : Serial as bs s₀ y) (h2a : ∀ c ∈ as, TwoPhase c) (h2b : ∀ c ∈ bs, TwoPhase c)
    (hex : y.ExclusiveAlong sched) : Serial as bs s₀ (y.run sched) := by
  induction sched generalizing y with
  | nil => exact h
  | cons b sched ih => exact ih (serial_step h h2a h2b hex.1 hex.2.head) hex.2

/-- A finished thread has run all its routines, and nothing of it is pending. -/
theorem ThreadInv.finished (h : ThreadInv V as doneA pendA t) (hr : t.rest = [])
    (hq : t.queue = []) : as = doneA ∧ pendA = [] := by
  cases h with
  | committed hall hpend => exact ⟨by simpa [hq] using hall, by simp [hpend, hr, writes]⟩
  | reading c pre hall hpend hc hw hne =>
    exact absurd (by simpa [hr, hc] using hw) hne

/-- Two-phase routines of two threads that are never inside one cell together leave the store
    of a serial run that keeps the order of each thread. -/
theorem serializable_of_exclusive (as bs : List (Routine Addr Val)) (s : Addr → Val)
    (sched : List Bool) (h2a : ∀ c ∈ as, TwoPhase c) (h2b : ∀ c ∈ bs, TwoPhase c)
    (hex : (System.start as bs s).ExclusiveAlong sched)
    (hfin : ((System.start as bs s).run sched).Finished) :
    ∃ L, Interleaving as bs L ∧ ((System.start as bs s).run sched).store = L.foldl run s := by
  obtain ⟨doneA, doneB, L, pendA, pendB, hL, hl, hr, hs⟩ :=
    serial_run (serial_start as bs s) h2a h2b hex
  obtain ⟨rfl, rfl⟩ := hl.finished hfin.1.1 hfin.1.2
  obtain ⟨rfl, rfl⟩ := hr.finished hfin.2.1 hfin.2.2
  exact ⟨L, hL, funext fun a => hs a (by simp) (by simp)⟩

end SmartWarehouse.Lib
