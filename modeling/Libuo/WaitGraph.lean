import Mathlib.Data.List.Basic
import Mathlib.Logic.Relation
import Mathlib.Tactic.Common

/-!
# Threads that wait for each other

Where a thread is tells which mutex it waits for and which ones it holds. Threads are in a
deadlock when each of them waits for a mutex that the next one holds, in a cycle.
-/

namespace Libuo.WaitGraph
open Relation

/-- What a thread waits for and what it holds. -/
structure Locking (C M : Type) where
  waits : C → Option M
  holds : C → M → Bool

namespace Locking

variable {C M : Type} (L : Locking C M) (procs : List C)

/-- A thread waits for a mutex that another one holds, or the same one. -/
def WaitsFor (i j : ℕ) : Prop :=
  ∃ c d m, procs[i]? = some c ∧ procs[j]? = some d ∧ L.waits c = some m ∧ L.holds d m = true

def Deadlock : Prop := ∃ i, TransGen (L.WaitsFor procs) i i

/-- A thread of a deadlock. -/
def Stuck (c : C) : Prop := ∃ i, procs[i]? = some c ∧ TransGen (L.WaitsFor procs) i i

variable {L procs} {c d : C} {m m' : M}

theorem cycle_next {r : ℕ → ℕ → Prop} {i : ℕ} (h : TransGen r i i) :
    ∃ j, r i j ∧ TransGen r j j := by
  obtain ⟨j, hij, hji⟩ := TransGen.head'_iff.mp h
  exact ⟨j, hij, TransGen.tail' hji hij⟩

theorem cycle_prev {r : ℕ → ℕ → Prop} {i : ℕ} (h : TransGen r i i) :
    ∃ j, r j i ∧ TransGen r j j := by
  obtain ⟨j, hij, hji⟩ := TransGen.tail'_iff.mp h
  exact ⟨j, hji, TransGen.head' hji hij⟩

theorem Deadlock.exists_stuck (h : L.Deadlock procs) : ∃ c, L.Stuck procs c := by
  obtain ⟨i, hi⟩ := h
  obtain ⟨j, ⟨c, d, m, hc, -⟩, -⟩ := cycle_next hi
  exact ⟨c, i, hc, hi⟩

theorem Stuck.mem (h : L.Stuck procs c) : c ∈ procs := by
  obtain ⟨i, hc, -⟩ := h
  exact List.mem_of_getElem? hc

/-- A stuck thread waits for another one. -/
theorem Stuck.waits (h : L.Stuck procs c) :
    ∃ m d, L.waits c = some m ∧ L.holds d m = true ∧ L.Stuck procs d := by
  obtain ⟨i, hc, hi⟩ := h
  obtain ⟨j, ⟨c', d, m, hc', hd, hwaits, hholds⟩, hj⟩ := cycle_next hi
  obtain rfl := Option.some.inj (hc.symm.trans hc')
  exact ⟨m, d, hwaits, hholds, j, hd, hj⟩

theorem Stuck.holds (h : L.Stuck procs c) : ∃ m, L.holds c m = true := by
  obtain ⟨i, hc, hi⟩ := h
  obtain ⟨j, ⟨c', d, m, -, hd, -, hholds⟩, -⟩ := cycle_prev hi
  obtain rfl := Option.some.inj (hc.symm.trans hd)
  exact ⟨m, hholds⟩

/-- Two threads that hold what the other one waits for. -/
theorem deadlock_pair (hc : c ∈ procs) (hd : d ∈ procs) (hcw : L.waits c = some m)
    (hdh : L.holds d m = true) (hdw : L.waits d = some m') (hch : L.holds c m' = true) :
    L.Deadlock procs := by
  obtain ⟨i, hi⟩ := List.mem_iff_getElem?.mp hc
  obtain ⟨j, hj⟩ := List.mem_iff_getElem?.mp hd
  exact ⟨i, (TransGen.single ⟨c, d, m, hi, hj, hcw, hdh⟩).tail ⟨d, c, m', hj, hi, hdw, hch⟩⟩

end Locking

end Libuo.WaitGraph
