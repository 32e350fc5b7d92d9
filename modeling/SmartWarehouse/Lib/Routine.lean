/-
  Straight-line routines over a shared store.

  A routine reads shared cells into local variables (one variable per cell), edits the
  variables and writes them back. `run` executes a whole routine, `stores` lists the shared
  store after each single write. A routine only changes the cells it writes
  (`exec_store_of_not_mem_writes`), and once its reads are done what it writes depends on
  its local variables alone (`exec_store_of_mem_writes`).
-/
import Mathlib.Logic.Function.Basic
import Mathlib.Data.List.Basic

namespace SmartWarehouse.Lib

variable {Addr Val : Type}

/-- One instruction of a routine. `read a` loads cell `a` into the local variable of `a`,
    `write a` stores that variable back. -/
inductive Instr (Addr Val : Type) where
  | read (a : Addr)
  | edit (a : Addr) (f : Val → Val)
  | write (a : Addr)

abbrev Routine (Addr Val : Type) := List (Instr Addr Val)

/-- The local variables of a running routine and the shared store. -/
structure Machine (Addr Val : Type) where
  regs : Addr → Val
  store : Addr → Val

/-- The cells a routine reads, in order. -/
def reads : Routine Addr Val → List Addr
  | [] => []
  | .read a :: c => a :: reads c
  | .edit _ _ :: c => reads c
  | .write _ :: c => reads c

/-- The cells a routine writes, in order. -/
def writes : Routine Addr Val → List Addr
  | [] => []
  | .read _ :: c => writes c
  | .edit _ _ :: c => writes c
  | .write a :: c => a :: writes c

@[simp] theorem reads_append (c d : Routine Addr Val) : reads (c ++ d) = reads c ++ reads d := by
  induction c with
  | nil => rfl
  | cons i c ih => cases i <;> simp [reads, ih]

@[simp] theorem writes_append (c d : Routine Addr Val) :
    writes (c ++ d) = writes c ++ writes d := by
  induction c with
  | nil => rfl
  | cons i c ih => cases i <;> simp [writes, ih]

variable [DecidableEq Addr]

def Instr.exec (m : Machine Addr Val) : Instr Addr Val → Machine Addr Val
  | .read a => { m with regs := Function.update m.regs a (m.store a) }
  | .edit a f => { m with regs := Function.update m.regs a (f (m.regs a)) }
  | .write a => { m with store := Function.update m.store a (m.regs a) }

def exec (m : Machine Addr Val) (c : Routine Addr Val) : Machine Addr Val :=
  c.foldl Instr.exec m

/-- The store after each write of the routine, in order. -/
def stores (m : Machine Addr Val) : Routine Addr Val → List (Addr → Val)
  | [] => []
  | .read a :: c => stores (Instr.exec m (.read a)) c
  | .edit a f :: c => stores (Instr.exec m (.edit a f)) c
  | .write a :: c => (Instr.exec m (.write a)).store :: stores (Instr.exec m (.write a)) c

/-- A whole run of a routine, whose local variables start at `default`. -/
def run [Inhabited Val] (s : Addr → Val) (c : Routine Addr Val) : Addr → Val :=
  (exec ⟨fun _ => default, s⟩ c).store

/-- The store after each write of a whole run. -/
def runStores [Inhabited Val] (s : Addr → Val) (c : Routine Addr Val) : List (Addr → Val) :=
  stores ⟨fun _ => default, s⟩ c

@[simp] theorem exec_nil (m : Machine Addr Val) : exec m [] = m := rfl

@[simp] theorem exec_cons (m : Machine Addr Val) (i : Instr Addr Val) (c : Routine Addr Val) :
    exec m (i :: c) = exec (i.exec m) c := rfl

theorem exec_append (m : Machine Addr Val) (c d : Routine Addr Val) :
    exec m (c ++ d) = exec (exec m c) d := List.foldl_append ..

/-- Cells a routine does not write keep their value. -/
theorem exec_store_of_not_mem_writes (c : Routine Addr Val) (m : Machine Addr Val) {a : Addr}
    (h : a ∉ writes c) : (exec m c).store a = m.store a := by
  induction c generalizing m with
  | nil => rfl
  | cons i c ih =>
    cases i with
    | read b => exact ih _ h
    | edit b f => exact ih _ h
    | write b =>
      simp only [writes, List.mem_cons, not_or] at h
      rw [exec_cons, ih _ h.2]
      exact Function.update_of_ne h.1 _ _

theorem exec_store_of_writes_nil (c : Routine Addr Val) (m : Machine Addr Val)
    (h : writes c = []) : (exec m c).store = m.store :=
  funext fun a => exec_store_of_not_mem_writes c m (by simp [h])

theorem stores_of_writes_nil (c : Routine Addr Val) (m : Machine Addr Val) (h : writes c = []) :
    stores m c = [] := by
  induction c generalizing m with
  | nil => rfl
  | cons i c ih => cases i <;> simp_all [stores, writes]

/-- After its last read, a routine writes to `a` what the local variable of `a` decides:
    neither the other variables nor the store matter. -/
theorem exec_store_of_mem_writes (c : Routine Addr Val) (m m' : Machine Addr Val) {a : Addr}
    (hr : reads c = []) (ha : a ∈ writes c) (he : m.regs a = m'.regs a) :
    (exec m c).store a = (exec m' c).store a := by
  induction c generalizing m m' with
  | nil => simp [writes] at ha
  | cons i c ih =>
    cases i with
    | read b => simp [reads] at hr
    | edit b f =>
      refine ih _ _ hr ha ?_
      by_cases hb : a = b
      · subst hb; simp [Instr.exec, he]
      · simp [Instr.exec, Function.update_of_ne hb, he]
    | write b =>
      by_cases hc : a ∈ writes c
      · exact ih _ _ hr hc he
      · have hab : a = b := by simpa [writes, hc] using ha
        subst hab
        rw [exec_cons, exec_cons, exec_store_of_not_mem_writes c _ hc,
          exec_store_of_not_mem_writes c _ hc]
        simp [Instr.exec, he]

/-- Before its first write, the local variable of `a` depends on cell `a` alone. -/
theorem exec_regs_congr (c : Routine Addr Val) (m m' : Machine Addr Val) {a : Addr}
    (hw : writes c = []) (hs : m.store a = m'.store a) (he : m.regs a = m'.regs a) :
    (exec m c).regs a = (exec m' c).regs a := by
  induction c generalizing m m' with
  | nil => exact he
  | cons i c ih =>
    cases i with
    | read b =>
      refine ih _ _ hw hs ?_
      by_cases hb : a = b
      · subst hb; simp [Instr.exec, hs]
      · simp [Instr.exec, Function.update_of_ne hb, he]
    | edit b f =>
      refine ih _ _ hw hs ?_
      by_cases hb : a = b
      · subst hb; simp [Instr.exec, he]
      · simp [Instr.exec, Function.update_of_ne hb, he]
    | write b => simp [writes] at hw

end SmartWarehouse.Lib
