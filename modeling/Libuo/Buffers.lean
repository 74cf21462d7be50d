import Mathlib.Data.Int.Cast.Lemmas
import Mathlib.Data.List.Basic
import Mathlib.Tactic.Common

/-!
# Growing byte buffers

A buffer is its allocated bytes together with a position. Allocation always
succeeds here; freshly allocated bytes are indeterminate and come from an
arbitrary function of their offset. Stores outside the allocated bytes fail.

The operations have the names of the source without `uo_buf_`.
-/

namespace Libuo

/-- `uo_buf`: the allocated bytes and the position. -/
structure Buf where
  data : List UInt8
  ptr : ℕ
  deriving DecidableEq, Repr

namespace Buf

variable (junk : ℕ → UInt8)

def alloc (size : ℕ) : Buf := ⟨(List.range size).map junk, 0⟩

def getSize (b : Buf) : ℕ := b.data.length

def getLenBeforePtr (b : Buf) : ℕ := b.ptr

/-- `uo_buf_get_len_after_ptr`, a signed difference. -/
def getLenAfterPtr (b : Buf) : ℤ := b.getSize - b.ptr

/-- `uo_buf_realloc`: the bytes that fit are kept, new ones are indeterminate. -/
def realloc (b : Buf) (size : ℕ) : Buf :=
  { b with data := b.data.take size ++ (List.range (size - b.getSize)).map junk }

def realloc2x (b : Buf) : Buf := b.realloc junk (b.getSize * 2)

def setPtrRel (b : Buf) (offset : ℤ) : Buf := { b with ptr := (b.ptr + offset).toNat }

def setPtrAbs (b : Buf) (offset : ℕ) : Buf := { b with ptr := offset }

/-- Bytes copied to an offset; the block has to lie inside the allocated bytes. -/
def store (b : Buf) (offset : ℕ) (src : List UInt8) : Option Buf :=
  if offset + src.length ≤ b.getSize then
    some { b with data := b.data.take offset ++ src ++ b.data.drop (offset + src.length) }
  else none

/-- `while (uo_buf_get_len_after_ptr(*buf) <= (ptrdiff_t)size)`, for at most `fuel` tests. -/
def reserve (size : ℕ) : ℕ → Buf → Option Buf
  | 0, _ => none
  | fuel + 1, b =>
    if b.getLenAfterPtr ≤ size then reserve size fuel (b.realloc2x junk) else some b

/-- `uo_buf_memcpy_append`. Each doubling of a buffer that is not empty enlarges it, so
that the loop ends within the given number of tests or never. -/
def memcpyAppend (b : Buf) (src : List UInt8) : Option Buf := do
  let b ← reserve junk src.length (b.ptr + src.length + 2) b
  let b ← b.store b.ptr src
  some (b.setPtrRel src.length)

/-- The bytes before the position. -/
def content (b : Buf) : List UInt8 := b.data.take b.ptr

/-- A buffer that can be doubled, with its position inside the allocated bytes. -/
structure Valid (b : Buf) : Prop where
  size_pos : 0 < b.getSize
  ptr_le : b.ptr ≤ b.getSize

variable {junk} {b : Buf}

@[simp] theorem ptr_realloc (size : ℕ) : (b.realloc junk size).ptr = b.ptr := rfl

@[simp] theorem ptr_setPtrAbs (offset : ℕ) : (b.setPtrAbs offset).ptr = offset := rfl

@[simp] theorem getSize_setPtrRel (offset : ℤ) :
    (b.setPtrRel offset).getSize = b.getSize := rfl

theorem Valid.length_content (h : b.Valid) : b.content.length = b.ptr := by
  rw [content, List.length_take]
  exact Nat.min_eq_left h.ptr_le

theorem getSize_realloc (size : ℕ) : (b.realloc junk size).getSize = size := by
  simp only [realloc, getSize, List.length_append, List.length_take, List.length_map,
    List.length_range]
  omega

@[simp] theorem getSize_realloc2x : (b.realloc2x junk).getSize = b.getSize * 2 :=
  getSize_realloc _

@[simp] theorem ptr_realloc2x : (b.realloc2x junk).ptr = b.ptr := rfl

/-- A reallocation that does not cut into the content keeps it. -/
theorem content_realloc {size : ℕ} (hb : b.ptr ≤ b.getSize) (h : b.ptr ≤ size) :
    (b.realloc junk size).content = b.content := by
  have hb' : b.ptr ≤ b.data.length := hb
  rw [content, content, realloc]
  change (b.data.take size ++ _).take b.ptr = _
  rw [List.take_append_of_le_length (by rw [List.length_take]; omega), List.take_take,
    Nat.min_eq_left h]

theorem content_realloc2x (hb : b.ptr ≤ b.getSize) :
    (b.realloc2x junk).content = b.content :=
  content_realloc hb (by omega)

theorem Valid.realloc2x (h : b.Valid) : (b.realloc2x junk).Valid := by
  have := h.size_pos
  have := h.ptr_le
  exact ⟨by simp; omega, by simp; omega⟩

theorem alloc_valid (junk : ℕ → UInt8) {size : ℕ} (h : 0 < size) : (alloc junk size).Valid :=
  ⟨by simpa [alloc, getSize] using h, Nat.zero_le _⟩

/-- The doubling loop leaves room for the block and the content as it was. -/
theorem reserve_spec (junk : ℕ → UInt8) (size fuel : ℕ) (hb : b.Valid) (hpos : 0 < fuel)
    (hf : b.ptr + size + 1 < fuel + b.getSize) :
    ∃ b', reserve junk size fuel b = some b' ∧ b'.Valid ∧ b'.ptr = b.ptr ∧
      b'.content = b.content ∧ b.getSize ≤ b'.getSize ∧ b'.ptr + size < b'.getSize := by
  induction fuel generalizing b with
  | zero => omega
  | succ fuel ih =>
    by_cases h : b.getLenAfterPtr ≤ size
    · have hsize := hb.size_pos
      obtain ⟨b', hr, hv, hp, hc, hs, hroom⟩ := ih (b := b.realloc2x junk) hb.realloc2x
        (by rw [getLenAfterPtr] at h; omega) (by simp; omega)
      refine ⟨b', by rw [reserve, if_pos h, hr], hv, hp, hc.trans (content_realloc2x hb.ptr_le),
        ?_, hroom⟩
      simp only [getSize_realloc2x] at hs
      omega
    · refine ⟨b, by rw [reserve, if_neg h], hb, rfl, rfl, Nat.le_refl _, ?_⟩
      simp only [getLenAfterPtr] at h
      omega

theorem store_spec (b : Buf) (offset : ℕ) (src : List UInt8) (h : offset + src.length ≤ b.getSize) :
    ∃ b', b.store offset src = some b' ∧ b'.ptr = b.ptr ∧ b'.getSize = b.getSize ∧
      b'.data = b.data.take offset ++ src ++ b.data.drop (offset + src.length) := by
  refine ⟨_, if_pos h, rfl, ?_, rfl⟩
  have h' : offset + src.length ≤ b.data.length := h
  simp only [getSize, List.length_append, List.length_take, List.length_drop]
  omega

theorem store_inv {offset : ℕ} {src : List UInt8} {b' : Buf} (h : b.store offset src = some b') :
    offset + src.length ≤ b.getSize ∧ b'.ptr = b.ptr ∧ b'.getSize = b.getSize := by
  by_cases hle : offset + src.length ≤ b.getSize
  · obtain ⟨b₁, hstore, hptr, hsize, -⟩ := store_spec b offset src hle
    obtain rfl := Option.some.inj (hstore.symm.trans h)
    exact ⟨hle, hptr, hsize⟩
  · rw [store, if_neg hle] at h
    cases h

/-- A block at the position, the first bytes of which become content. -/
theorem store_at_ptr (src rest : List UInt8) (h : b.ptr + (src.length + rest.length) ≤ b.getSize) :
    ∃ b', b.store b.ptr (src ++ rest) = some b' ∧ b'.ptr = b.ptr ∧ b'.getSize = b.getSize ∧
      b'.content = b.content ∧ (b'.setPtrRel src.length).content = b.content ++ src := by
  obtain ⟨b', hstore, hptr, hsize, hdata⟩ :=
    store_spec b b.ptr (src ++ rest) (by rw [List.length_append]; exact h)
  have hle : b.ptr ≤ b.data.length := by
    have h : b.ptr + (src.length + rest.length) ≤ b.data.length := h
    omega
  have htake : (b.data.take b.ptr).length = b.ptr := by rw [List.length_take]; omega
  have hsrc : (b.data.take b.ptr ++ src).length = b.ptr + src.length := by
    rw [List.length_append, htake]
  refine ⟨b', hstore, hptr, hsize, ?_, ?_⟩
  · rw [content, content, hptr, hdata, List.append_assoc,
      List.take_append_of_le_length (Nat.le_of_eq htake.symm), List.take_take, Nat.min_self]
  · have hend : (b'.setPtrRel src.length).ptr = b.ptr + src.length := by
      simp only [setPtrRel, hptr]
      omega
    rw [content, hend]
    change b'.data.take _ = _
    rw [hdata, ← List.append_assoc, List.append_assoc,
      List.take_append_of_le_length (Nat.le_of_eq hsrc.symm),
      List.take_of_length_le (Nat.le_of_eq hsrc)]
    rfl

/-- The loop doubles the buffer no more often than it has to. -/
theorem getSize_reserve {size fuel : ℕ} {b' : Buf} (h : reserve junk size fuel b = some b') :
    ∃ k, b'.getSize = b.getSize * 2 ^ k ∧ b.ptr + size < b'.getSize ∧
      ∀ j < k, b.getSize * 2 ^ j ≤ b.ptr + size := by
  induction fuel generalizing b with
  | zero => exact nomatch h
  | succ fuel ih =>
    rw [reserve] at h
    split at h
    · rename_i hfull
      rw [getLenAfterPtr] at hfull
      obtain ⟨k, hsize, hroom, hleast⟩ := ih h
      rw [getSize_realloc2x] at hsize hleast
      refine ⟨k + 1, by rw [hsize, pow_succ', Nat.mul_assoc], hroom, fun j hj => ?_⟩
      cases j with
      | zero => omega
      | succ j =>
        rw [pow_succ', ← Nat.mul_assoc]
        exact hleast j (by omega)
    · rename_i hroom
      rw [getLenAfterPtr] at hroom
      obtain rfl := Option.some.inj h
      exact ⟨0, by simp, by omega, by omega⟩

theorem getSize_memcpyAppend {src : List UInt8} {b' : Buf} (h : b.memcpyAppend junk src = some b') :
    ∃ k, b'.getSize = b.getSize * 2 ^ k ∧ b.ptr + src.length < b'.getSize ∧
      ∀ j < k, b.getSize * 2 ^ j ≤ b.ptr + src.length := by
  simp only [memcpyAppend, Option.bind_eq_bind, Option.bind_eq_some_iff] at h
  obtain ⟨b₁, hreserve, b₂, hstore, h⟩ := h
  obtain ⟨k, hsize, hroom, hleast⟩ := getSize_reserve hreserve
  have hsame : b'.getSize = b₁.getSize := by
    rw [← Option.some.inj h, getSize_setPtrRel]
    exact (store_inv hstore).2.2
  exact ⟨k, hsame ▸ hsize, hsame ▸ hroom, hleast⟩

/-- Appending a block extends the content by it. -/
theorem memcpyAppend_spec (junk : ℕ → UInt8) (hb : b.Valid) (src : List UInt8) :
    ∃ b', b.memcpyAppend junk src = some b' ∧ b'.Valid ∧ b'.content = b.content ++ src ∧
      b'.ptr = b.ptr + src.length ∧ b.getSize ≤ b'.getSize := by
  obtain ⟨b1, hr, hv, hp, hc, hs, hroom⟩ := reserve_spec junk src.length
    (b.ptr + src.length + 2) hb (by omega) (by have := hb.size_pos; omega)
  obtain ⟨b2, hst, hp2, hs2, -, hc2⟩ := store_at_ptr (b := b1) src []
    (by rw [List.length_nil]; omega)
  rw [List.append_nil] at hst
  have hptr : (b2.setPtrRel src.length).ptr = b.ptr + src.length := by
    simp only [setPtrRel, hp2, hp]
    omega
  refine ⟨b2.setPtrRel src.length, by simp [memcpyAppend, hr, hst], ⟨?_, ?_⟩, by rw [hc2, hc], hptr,
    ?_⟩
  · rw [getSize_setPtrRel, hs2]
    exact hv.size_pos
  · rw [hptr, getSize_setPtrRel, hs2]
    omega
  · rw [getSize_setPtrRel, hs2]
    exact hs

end Buf

end Libuo
