import Libuo.BufferRuns

/-!
# Buffers that grow

Doubling ends for every length that is appended, and a single doubling makes room for the NUL, while
the position is inside a buffer that is not empty. Every operation keeps it there, but nothing makes
an empty buffer larger except a formatted text.
-/

namespace Libuo.Buf

/-- The buffers that one of the given size becomes. Its position may be set to any place in it. -/
inductive Reached (junk : ℕ → UInt8) (size : ℕ) : Buf → Prop
  | alloc : Reached junk size (alloc junk size)
  | op {b b' : Buf} (op : Op) (h : Reached junk size b) (hop : op.apply junk b = some b') :
      Reached junk size b'
  | realloc2x {b : Buf} (h : Reached junk size b) : Reached junk size (b.realloc2x junk)
  | setPtrAbs {b : Buf} (offset : ℕ) (h : Reached junk size b) (hle : offset ≤ b.getSize) :
      Reached junk size (b.setPtrAbs offset)

/-- The doubling for an append of any length ends, and the NUL is written inside the buffer. -/
structure Grows (junk : ℕ → UInt8) (b : Buf) : Prop where
  reserve (n : ℕ) : ∃ fuel b', reserve junk n fuel b = some b'
  nullTerminate : ∃ b', b.nullTerminate junk = some b'

/-- Whatever a buffer of the given size becomes, it grows. -/
def AlwaysGrows (size : ℕ) : Prop := ∀ junk b, Reached junk size b → Grows junk b

variable {junk : ℕ → UInt8} {b b' : Buf} {n size fuel : ℕ} {bytes text : List UInt8}

theorem valid_setPtrRel (h : b.ptr + n < b.getSize) : (b.setPtrRel n).Valid := by
  refine ⟨?_, ?_⟩
  · rw [getSize_setPtrRel]
    omega
  · rw [getSize_setPtrRel]
    simp only [setPtrRel]
    omega

theorem vsnprintf_inv (h : b.vsnprintf n text = some b') :
    b'.ptr = b.ptr ∧ b'.getSize = b.getSize := by
  rw [vsnprintf] at h
  split at h
  · obtain rfl := Option.some.inj h
    exact ⟨rfl, rfl⟩
  · exact (store_inv h).2

theorem Valid.printfAppend (h : b.Valid) (hop : b.printfAppend junk text = some b') : b'.Valid := by
  have hle := h.ptr_le
  rw [Buf.printfAppend] at hop
  by_cases hlong : text.length ≥ toInt b.getLenAfterPtr
  · simp only [if_pos hlong, Option.bind_eq_bind, Option.bind_eq_some_iff] at hop
    obtain ⟨b₁, hfirst, b₂, hsecond, hb'⟩ := hop
    obtain rfl := Option.some.inj hb'
    obtain ⟨hroom, hptr, hsize⟩ := store_inv hsecond
    rw [List.length_append, List.length_singleton] at hroom
    exact valid_setPtrRel (by rw [hptr, hsize]; omega)
  · simp only [if_neg hlong, Option.bind_eq_bind, Option.bind_eq_some_iff] at hop
    obtain ⟨b₁, hfirst, b₂, hb₂, hb'⟩ := hop
    obtain rfl := Option.some.inj hb₂
    obtain rfl := Option.some.inj hb'
    obtain ⟨hptr, hsize⟩ := vsnprintf_inv hfirst
    rw [getLenAfterPtr, toInt] at hlong
    exact valid_setPtrRel (by rw [hptr, hsize]; omega)

theorem Valid.apply {op : Op} (h : b.Valid) (hop : op.apply junk b = some b') : b'.Valid := by
  cases op with
  | memcpyAppend src =>
    obtain ⟨b₁, happend, hvalid, -⟩ := memcpyAppend_spec junk h src
    obtain rfl := Option.some.inj (happend.symm.trans hop)
    exact hvalid
  | printfAppend text => exact h.printfAppend hop
  | nullTerminate =>
    obtain ⟨b₁, hterm, hvalid, -⟩ := nullTerminate_spec junk h
    obtain rfl := Option.some.inj (hterm.symm.trans hop)
    exact hvalid
  | reset =>
    obtain rfl := Option.some.inj hop
    exact ⟨h.size_pos, Nat.zero_le _⟩
  | write bytes =>
    obtain ⟨b₁, hstore, hb'⟩ := Option.bind_eq_some_iff.mp hop
    obtain rfl := Option.some.inj hb'
    obtain ⟨hroom, hptr, hsize⟩ := store_inv hstore
    refine ⟨?_, ?_⟩
    · rw [getSize_setPtrRel, hsize]
      exact h.size_pos
    · rw [getSize_setPtrRel, hsize]
      simp only [setPtrRel, hptr]
      omega

theorem Reached.valid (h : Reached junk size b) (hsize : size ≠ 0) : b.Valid := by
  induction h with
  | alloc => exact alloc_valid junk (Nat.pos_of_ne_zero hsize)
  | op op _ hop ih => exact ih.apply hop
  | realloc2x _ ih => exact ih.realloc2x
  | setPtrAbs offset _ hle ih => exact ⟨ih.size_pos, hle⟩

theorem Valid.grows (h : b.Valid) : Grows junk b where
  reserve n := by
    have hpos := h.size_pos
    obtain ⟨b', hreserve, -⟩ :=
      reserve_spec junk n (b.ptr + n + 2) h (Nat.succ_pos _) (by omega)
    exact ⟨_, b', hreserve⟩
  nullTerminate := by
    obtain ⟨b', hterm, -⟩ := nullTerminate_spec junk h
    exact ⟨b', hterm⟩

theorem reserve_empty (h : b.getSize = 0) (fuel : ℕ) : reserve junk n fuel b = none := by
  induction fuel generalizing b with
  | zero => rfl
  | succ fuel ih =>
    rw [reserve, if_pos (by rw [getLenAfterPtr]; omega)]
    exact ih (by rw [getSize_realloc2x, h, Nat.zero_mul])

end Libuo.Buf
