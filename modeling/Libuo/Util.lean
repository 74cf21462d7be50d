import Mathlib.Data.Nat.Bitwise
import Mathlib.Data.Nat.Size
import Mathlib.Order.Bounds.Defs
import Mathlib.Tactic.Common

/-!
# Machine words

Rounding up to a power of two: the bits of `n - 1` are smeared to the right until
every bit below the highest one is set.
-/

namespace Libuo.Util

def ceilPow2 (n : UInt64) : UInt64 :=
  let n := n - 1
  let n := n ||| n >>> 1
  let n := n ||| n >>> 2
  let n := n ||| n >>> 4
  let n := n ||| n >>> 8
  let n := n ||| n >>> 16
  let n := n ||| n >>> 32
  n + 1

/-- A bit is set in `a` when one of `w` bits of `m` from it on is set. -/
private def Smeared (m w a : ℕ) : Prop := ∀ i, a.testBit i = true ↔ ∃ j < w, m.testBit (i + j)

private theorem smeared_self (m : ℕ) : Smeared m 1 m := by
  intro i
  constructor
  · exact fun h => ⟨0, by omega, h⟩
  · rintro ⟨j, hj, h⟩
    obtain rfl : j = 0 := by omega
    exact h

private theorem Smeared.double {m w a : ℕ} (h : Smeared m w a) :
    Smeared m (w + w) (a ||| a >>> w) := by
  intro i
  rw [Nat.testBit_or, Bool.or_eq_true, Nat.testBit_shiftRight, h i, h (w + i)]
  constructor
  · rintro (⟨j, hj, hb⟩ | ⟨j, hj, hb⟩)
    · exact ⟨j, by omega, hb⟩
    · exact ⟨w + j, by omega, by rwa [← Nat.add_assoc, Nat.add_comm i]⟩
  · rintro ⟨j, hj, hb⟩
    by_cases hw : j < w
    · exact .inl ⟨j, hw, hb⟩
    · refine .inr ⟨j - w, by omega, ?_⟩
      rwa [show w + i + (j - w) = i + j by omega]

private theorem Smeared.eq {m a : ℕ} (h : Smeared m 64 a) (hm : m < 2 ^ 64) :
    a = 2 ^ m.size - 1 := by
  refine Nat.eq_of_testBit_eq fun i => ?_
  rw [Nat.testBit_two_pow_sub_one, Bool.eq_iff_iff, h i, decide_eq_true_eq, Nat.lt_size]
  constructor
  · rintro ⟨j, -, hb⟩
    exact Nat.le_trans (Nat.pow_le_pow_right (by omega) (Nat.le_add_right i j))
      (Nat.ge_two_pow_of_testBit hb)
  · intro hle
    have hpos : m ≠ 0 := by
      rintro rfl
      have := Nat.two_pow_pos i
      omega
    have hsize : m.size ≤ 64 := Nat.size_le.mpr hm
    have hlt : i < m.size := Nat.lt_size.mpr hle
    refine ⟨m.size - 1 - i, by omega, ?_⟩
    rw [show i + (m.size - 1 - i) = m.size - 1 by omega]
    refine Nat.testBit_of_two_pow_le_and_two_pow_add_one_gt (Nat.lt_size.mp (by omega)) ?_
    rw [show m.size - 1 + 1 = m.size by omega]
    exact Nat.lt_size_self m

/-- The result is the smallest power of two that is not less than `n`. -/
theorem ceilPow2_eq {n : ℕ} (h0 : 0 < n) (hn : n ≤ 2 ^ 63) :
    (ceilPow2 (UInt64.ofNat n)).toNat = 2 ^ (n - 1).size ∧ n ≤ 2 ^ (n - 1).size := by
  have hpred : (UInt64.ofNat n - 1).toNat = n - 1 := by
    rw [UInt64.toNat_sub_of_le]
    · rw [UInt64.toNat_ofNat', Nat.mod_eq_of_lt (by omega)]
      rfl
    · rw [UInt64.le_iff_toNat_le, UInt64.toNat_ofNat', Nat.mod_eq_of_lt (by omega)]
      exact h0
  have hsize : (n - 1).size ≤ 63 := Nat.size_le.mpr (by omega)
  have hsmear := (smeared_self (n - 1)).double.double.double.double.double.double
  have heq := hsmear.eq (by omega)
  have hpow : 2 ^ (n - 1).size < 2 ^ 64 := Nat.pow_lt_pow_right (by omega) (by omega)
  have hpos := Nat.two_pow_pos (n - 1).size
  have hlt := Nat.lt_size_self (n - 1)
  refine ⟨?_, by omega⟩
  rw [ceilPow2]
  simp only [UInt64.toNat_add, UInt64.toNat_or, UInt64.toNat_shiftRight, hpred]
  change (_ + 1) % 2 ^ 64 = _
  rw [show ∀ a : ℕ, a = 2 ^ (n - 1).size - 1 → (a + 1) % 2 ^ 64 = 2 ^ (n - 1).size from
    fun a ha => by omega]
  exact heq

/-- The powers of two that are not less than `n`. -/
def powersFrom (n : ℕ) : Set ℕ := {p | n ≤ p ∧ ∃ k, p = 2 ^ k}

theorem isLeast_two_pow_size {n : ℕ} (h0 : 0 < n) :
    IsLeast (powersFrom n) (2 ^ (n - 1).size) := by
  constructor
  · have hlt := Nat.lt_size_self (n - 1)
    exact ⟨by omega, _, rfl⟩
  · rintro p ⟨hle, k, rfl⟩
    exact Nat.pow_le_pow_right (Nat.succ_pos 1) (Nat.size_le.mpr (by omega))

end Libuo.Util
