import Mathlib.Data.Nat.ModEq
import Mathlib.Data.Set.Insert
import Mathlib.Logic.Function.Basic
import Mathlib.Tactic.Common

/-!
# Rings of slots

Numbered values go through the slots of a ring, each number to the slot of its class. As
long as a slot is written for a number only after it has been read for the number one
round before, and read only after it has been written, every unread value is in its slot.
-/

namespace Libuo.SlotRing

variable {α : Type} {cap : ℕ} {written read : Set ℕ} {slots : ℕ → α} {value : ℕ → α} {n t k : ℕ}

/-- The numbers written and those read so far, with the contents of the slots. -/
structure Ordered (cap : ℕ) (written read : Set ℕ) (slots value : ℕ → α) : Prop where
  written_of_read : ∀ t ∈ read, t ∈ written
  read_of_written : ∀ t, t + cap ∈ written → t ∈ read
  unread : ∀ t ∈ written, t ∉ read → slots (t % cap) = value t

theorem Ordered.empty (slots value : ℕ → α) : Ordered cap ∅ ∅ slots value :=
  ⟨fun _ h => h, fun _ h => h, fun _ h => h.elim⟩

theorem Ordered.read_of_later (h : Ordered cap written read slots value) {k : ℕ}
    (ht : t + (k + 1) * cap ∈ written) : t ∈ read := by
  induction k with
  | zero => exact h.read_of_written t (by simpa using ht)
  | succ k ih =>
    have hstep : t + (k + 1 + 1) * cap = t + (k + 1) * cap + cap := by
      rw [Nat.add_mul (k + 1), Nat.one_mul, Nat.add_assoc]
    rw [hstep] at ht
    exact ih (h.written_of_read _ (h.read_of_written _ ht))

private theorem eq_add_of_mod_eq (hlt : t < n) (hmod : t % cap = n % cap) :
    ∃ k, n = t + (k + 1) * cap := by
  obtain ⟨m, hm⟩ := (Nat.modEq_iff_dvd' hlt.le).mp hmod
  have hpos : m ≠ 0 := by
    rintro rfl
    omega
  obtain ⟨k, rfl⟩ := Nat.exists_eq_add_one_of_ne_zero hpos
  exact ⟨k, by rw [Nat.mul_comm]; omega⟩

/-- A write to the slot of a number, after the number one round before has been read. -/
theorem Ordered.afterWrite (h : Ordered cap written read slots value) (hn : n ∉ written)
    (hbefore : ∀ t, t + cap = n → t ∈ read) :
    Ordered cap (insert n written) read (Function.update slots (n % cap) (value n)) value := by
  refine ⟨fun t ht => .inr (h.written_of_read t ht), ?_, ?_⟩
  · rintro t (ht | ht)
    · exact hbefore t ht
    · exact h.read_of_written t ht
  · rintro t (rfl | ht) hread
    · rw [Function.update_self]
    · have hne : t % cap ≠ n % cap := by
        intro hmod
        rcases Nat.lt_trichotomy t n with hlt | rfl | hlt
        · -- the numbers of the class before `n` have all been read
          obtain ⟨k, hk⟩ := eq_add_of_mod_eq hlt hmod
          have hlast : t + k * cap ∈ read :=
            hbefore _ (by rw [hk, Nat.add_mul, Nat.one_mul, Nat.add_assoc])
          cases k with
          | zero => exact hread (by simpa using hlast)
          | succ k => exact hread (h.read_of_later (h.written_of_read _ hlast))
        · exact hn ht
        · obtain ⟨k, rfl⟩ := eq_add_of_mod_eq hlt hmod.symm
          exact hn (h.written_of_read _ (h.read_of_later ht))
      rw [Function.update_of_ne hne, h.unread t ht hread]

theorem Ordered.afterRead (h : Ordered cap written read slots value) (ht : t ∈ written) :
    Ordered cap written (insert t read) slots value := by
  refine ⟨?_, fun t ht => .inr (h.read_of_written t ht), fun t ht hread =>
    h.unread t ht fun hr => hread (.inr hr)⟩
  rintro s (rfl | hs)
  · exact ht
  · exact h.written_of_read s hs

/-- The values of numbers not yet written do not matter. -/
theorem Ordered.congr {value' : ℕ → α} (h : Ordered cap written read slots value)
    (hvalue : ∀ t ∈ written, value' t = value t) : Ordered cap written read slots value' :=
  ⟨h.written_of_read, h.read_of_written, fun t ht hread =>
    (h.unread t ht hread).trans (hvalue t ht).symm⟩

end Libuo.SlotRing
