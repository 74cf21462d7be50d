import Libuo.Buffers
import Libuo.Util

/-!
# What is appended to a buffer

Blocks and formatted texts are appended, bytes are written at the position before it is
moved, and the position is reset. A formatted text is written twice when it does not fit,
the second time into a buffer that is large enough.
-/

namespace Libuo.Buf
open Util

variable (junk : ℕ → UInt8)

def headerSize : ℕ := 8 * 2

def growSize : ℕ := headerSize + 0x20

/-- A `ptrdiff_t` assigned to an `int`. -/
def toInt (n : ℤ) : ℤ := (n + 2 ^ 31) % 2 ^ 32 - 2 ^ 31

def nullTerminate (b : Buf) : Option Buf :=
  let b := if b.getLenAfterPtr < 1 then b.realloc2x junk else b
  b.store b.ptr [0]

/-- `vsprintf` to the position; the text is what the format and its arguments make. -/
def vsprintf (b : Buf) (text : List UInt8) : Option Buf := b.store b.ptr (text ++ [0])

/-- `vsnprintf` to the position. -/
def vsnprintf (b : Buf) (n : ℕ) (text : List UInt8) : Option Buf :=
  if n = 0 then some b else b.vsprintf (text.take (n - 1))

/-- The size of the buffer for a text that does not fit. -/
def printfSize (b : Buf) (len : ℕ) : ℕ :=
  (ceilPow2 (UInt64.ofNat (b.getLenBeforePtr + len + growSize + 1))).toNat - headerSize

/-- `uo_buf_printf_append` of a text of fewer than `2 ^ 31` bytes. -/
def printfAppend (b : Buf) (text : List UInt8) : Option Buf := do
  let n := toInt b.getLenAfterPtr
  let b ← b.vsnprintf (n % 2 ^ 64).toNat text
  let b ← if text.length ≥ n then (b.realloc junk (b.printfSize text.length)).vsprintf text
    else some b
  some (b.setPtrRel text.length)

/-- Bytes written to `uo_buf_get_ptr` before `uo_buf_set_ptr_rel`. -/
def write (b : Buf) (bytes : List UInt8) : Option Buf := do
  let b ← b.store b.ptr bytes
  some (b.setPtrRel bytes.length)

variable {junk} {b : Buf} {l text : List UInt8}

theorem write_spec (hb : b.Valid) (bytes : List UInt8) (h : bytes.length ≤ b.getLenAfterPtr) :
    ∃ b', b.write bytes = some b' ∧ b'.Valid ∧ b'.content = b.content ++ bytes ∧
      b'.getSize = b.getSize := by
  have hle := hb.ptr_le
  rw [getLenAfterPtr] at h
  obtain ⟨b', hstore, hptr, hsize, -, hcontent⟩ :=
    store_at_ptr (b := b) bytes [] (by rw [List.length_nil]; omega)
  rw [List.append_nil] at hstore
  refine ⟨_, by rw [write, hstore]; rfl, ⟨?_, ?_⟩, hcontent, hsize⟩
  · rw [getSize_setPtrRel, hsize]
    exact hb.size_pos
  · rw [getSize_setPtrRel, hsize]
    simp only [setPtrRel, hptr]
    omega

theorem nullTerminate_spec (junk : ℕ → UInt8) (hb : b.Valid) :
    ∃ b', b.nullTerminate junk = some b' ∧ b'.Valid ∧ b'.content = b.content ∧
      b'.getSize = if b.ptr = b.getSize then b.getSize * 2 else b.getSize := by
  have hpos := hb.size_pos
  have hle := hb.ptr_le
  obtain ⟨b₁, hb₁⟩ : ∃ b₁, b₁ = if b.getLenAfterPtr < 1 then b.realloc2x junk else b := ⟨_, rfl⟩
  obtain ⟨hptr, hcontent, hsize⟩ : b₁.ptr = b.ptr ∧ b₁.content = b.content ∧
      b₁.getSize = if b.ptr = b.getSize then b.getSize * 2 else b.getSize := by
    rw [hb₁, getLenAfterPtr]
    by_cases hfull : b.ptr = b.getSize
    · rw [if_pos (by omega), if_pos hfull]
      exact ⟨rfl, content_realloc2x hle, getSize_realloc2x⟩
    · rw [if_neg (by omega), if_neg hfull]
      exact ⟨rfl, rfl, rfl⟩
  have hroom : b₁.ptr + 1 ≤ b₁.getSize := by
    rw [hptr, hsize]
    split <;> omega
  obtain ⟨b', hstore, hptr', hsize', hcontent', -⟩ :=
    store_at_ptr (b := b₁) [] [0] hroom
  refine ⟨b', ?_, ⟨by omega, by omega⟩, hcontent'.trans hcontent, hsize'.trans hsize⟩
  rw [nullTerminate]
  simp only [← hb₁]
  exact hstore

theorem printfSize_spec (b : Buf) (len : ℕ) (h : b.ptr + len < 2 ^ 31) :
    b.ptr + len < b.printfSize len ∧ b.printfSize len < 2 ^ 33 := by
  obtain ⟨n, hn⟩ : ∃ n, n = b.ptr + len + growSize + 1 := ⟨_, rfl⟩
  have hgrow : growSize = 48 := rfl
  have hheader : headerSize = 16 := rfl
  obtain ⟨heq, hle⟩ := ceilPow2_eq (n := n) (by omega) (by omega)
  have hexp : (n - 1).size ≤ 32 := Nat.size_le.mpr (by omega)
  have hpow : 2 ^ (n - 1).size ≤ 2 ^ 32 := Nat.pow_le_pow_right (by omega) hexp
  rw [printfSize, getLenBeforePtr, ← hn, heq]
  omega

theorem vsprintf_spec (text : List UInt8) (h : b.ptr + text.length < b.getSize) :
    ∃ b', b.vsprintf text = some b' ∧ b'.ptr = b.ptr ∧ b'.getSize = b.getSize ∧
      b'.content = b.content ∧ (b'.setPtrRel text.length).content = b.content ++ text :=
  store_at_ptr text [0] (by rw [List.length_singleton]; omega)

/-- Whatever the size after the position is as an `int`, `vsnprintf` stays inside the buffer,
and what it has written is the text when the length returned is less. -/
theorem vsnprintf_spec (hb : b.Valid) (text : List UInt8) (h : text.length < 2 ^ 31) :
    ∃ b', b.vsnprintf (toInt b.getLenAfterPtr % 2 ^ 64).toNat text = some b' ∧ b'.ptr = b.ptr ∧
      b'.getSize = b.getSize ∧ b'.content = b.content ∧
      (text.length < toInt b.getLenAfterPtr →
        (b'.setPtrRel text.length).content = b.content ++ text ∧
          b.ptr + text.length < b.getSize) := by
  have hle := hb.ptr_le
  rw [getLenAfterPtr]
  obtain ⟨n, hn⟩ : ∃ n, n = toInt (b.getSize - b.ptr) := ⟨_, rfl⟩
  rw [← hn]
  rw [toInt] at hn
  rw [vsnprintf]
  split
  · exact ⟨b, rfl, rfl, rfl, rfl, by omega⟩
  · rename_i hne
    have hroom : b.ptr + (text.take ((n % 2 ^ 64).toNat - 1)).length < b.getSize := by
      rw [List.length_take]
      omega
    obtain ⟨b', hprint, hptr, hsize, hcontent, hnew⟩ := vsprintf_spec _ hroom
    refine ⟨b', hprint, hptr, hsize, hcontent, fun hlt => ?_⟩
    have hall : text.take ((n % 2 ^ 64).toNat - 1) = text := List.take_of_length_le (by omega)
    rw [hall] at hnew hroom
    exact ⟨hnew, hroom⟩

theorem printfAppend_spec (junk : ℕ → UInt8) (hb : b.Valid) (h : b.ptr + text.length < 2 ^ 31) :
    ∃ b', b.printfAppend junk text = some b' ∧ b'.Valid ∧ b'.content = b.content ++ text ∧
      (b'.getSize = b.getSize ∨ b'.getSize < 2 ^ 33) := by
  have hpos := hb.size_pos
  obtain ⟨b₁, hfirst, hptr, hsize, hcontent, hshort⟩ := vsnprintf_spec hb text (by omega)
  by_cases hlong : text.length ≥ toInt b.getLenAfterPtr
  · obtain ⟨hroom, hsmall⟩ := printfSize_spec b₁ text.length (by rw [hptr]; exact h)
    obtain ⟨b₂, hsecond, hptr₂, hsize₂, hcontent₂, hnew⟩ :=
      vsprintf_spec (b := b₁.realloc junk (b₁.printfSize text.length)) text
        (by rw [getSize_realloc]; exact hroom)
    rw [getSize_realloc] at hsize₂
    rw [content_realloc (by rw [hptr, hsize]; exact hb.ptr_le) (by omega), hcontent] at hnew
    rw [ptr_realloc] at hptr₂
    refine ⟨_, ?_, ⟨?_, ?_⟩, hnew, Or.inr ?_⟩
    · rw [printfAppend]
      simp only [hfirst, Option.bind_eq_bind, Option.bind_some, if_pos hlong, hsecond]
    · rw [getSize_setPtrRel]
      omega
    · rw [getSize_setPtrRel]
      simp only [setPtrRel]
      omega
    · rw [getSize_setPtrRel]
      omega
  · obtain ⟨hnew, hroom⟩ := hshort (by omega)
    refine ⟨_, ?_, ⟨?_, ?_⟩, hnew, Or.inl hsize⟩
    · rw [printfAppend]
      simp only [hfirst, Option.bind_eq_bind, Option.bind_some, if_neg hlong]
    · rw [getSize_setPtrRel]
      omega
    · rw [getSize_setPtrRel]
      simp only [setPtrRel]
      omega

inductive Op where
  | memcpyAppend (src : List UInt8)
  | printfAppend (text : List UInt8)
  | nullTerminate
  | reset
  | write (bytes : List UInt8)

namespace Op

def apply (junk : ℕ → UInt8) (b : Buf) : Op → Option Buf
  | .memcpyAppend src => b.memcpyAppend junk src
  | .printfAppend text => b.printfAppend junk text
  | .nullTerminate => b.nullTerminate junk
  | .reset => some (b.setPtrAbs 0)
  | .write bytes => b.write bytes

/-- What has been appended since the last reset. -/
def after (l : List UInt8) : Op → List UInt8
  | .memcpyAppend bytes | .printfAppend bytes | .write bytes => l ++ bytes
  | .nullTerminate => l
  | .reset => []

/-- The content stays below `2 ^ 31` bytes, and bytes are written where there is room. -/
def Legal (b : Buf) : Op → Prop
  | .memcpyAppend bytes | .printfAppend bytes => b.ptr + bytes.length < 2 ^ 31
  | .write bytes => b.ptr + bytes.length < 2 ^ 31 ∧ bytes.length ≤ b.getLenAfterPtr
  | .nullTerminate | .reset => True

instance (b : Buf) : (op : Op) → Decidable (op.Legal b)
  | .memcpyAppend bytes => inferInstanceAs (Decidable (b.ptr + bytes.length < 2 ^ 31))
  | .printfAppend bytes => inferInstanceAs (Decidable (b.ptr + bytes.length < 2 ^ 31))
  | .write bytes => inferInstanceAs (Decidable (b.ptr + bytes.length < 2 ^ 31 ∧
      (bytes.length : ℤ) ≤ b.getLenAfterPtr))
  | .nullTerminate => inferInstanceAs (Decidable True)
  | .reset => inferInstanceAs (Decidable True)

end Op

def runOps (junk : ℕ → UInt8) : Buf → List Op → Option Buf
  | b, [] => some b
  | b, op :: ops => (op.apply junk b).bind fun b' => runOps junk b' ops

/-- Each operation is legal in the state before it. -/
def LegalFrom (junk : ℕ → UInt8) : Buf → List Op → Prop
  | _, [] => True
  | b, op :: ops => op.Legal b ∧ ∀ b' ∈ op.apply junk b, LegalFrom junk b' ops

def decidableLegalFrom (junk : ℕ → UInt8) : (b : Buf) → (ops : List Op) →
    Decidable (LegalFrom junk b ops)
  | _, [] => inferInstanceAs (Decidable True)
  | b, op :: ops =>
    haveI (b' : Buf) := decidableLegalFrom junk b' ops
    inferInstanceAs (Decidable (op.Legal b ∧ ∀ b' ∈ op.apply junk b, LegalFrom junk b' ops))

instance (junk : ℕ → UInt8) (b : Buf) (ops : List Op) : Decidable (LegalFrom junk b ops) :=
  decidableLegalFrom junk b ops

/-- The position is inside the buffer, before it is what has been appended, and neither a
buffer doubled any number of times nor one made for a text is too small for the content. -/
structure Sound (size : ℕ) (b : Buf) (l : List UInt8) : Prop where
  valid : b.Valid
  content : b.content = l
  short : b.ptr < 2 ^ 31
  small : b.getSize ≤ max size (2 ^ 33)
  doubled (k : ℕ) : b.ptr ≤ b.getSize * 2 ^ k
  printed (len : ℕ) : b.ptr + len < 2 ^ 31 → b.ptr + len < b.printfSize len

variable {size : ℕ}

theorem sound_of_valid (h : b.Valid) (hcontent : b.content = l) (hshort : l.length < 2 ^ 31)
    (hsmall : b.getSize ≤ max size (2 ^ 33)) : Sound size b l := by
  refine ⟨h, hcontent, ?_, hsmall, fun _ => h.ptr_le.trans (Nat.le_mul_of_pos_right _
    (Nat.two_pow_pos _)), fun len hlen => (printfSize_spec b len hlen).1⟩
  rwa [← h.length_content, hcontent]

theorem Sound.length (h : Sound size b l) : l.length = b.ptr := by
  rw [← h.content, h.valid.length_content]

/-- The doubling loop stops below twice what is needed. -/
theorem le_of_doubled {n m k : ℕ} (hsize : m = n * 2 ^ k) (h : ∀ j < k, n * 2 ^ j < 2 ^ 31) :
    m ≤ max n (2 ^ 33) := by
  cases k with
  | zero => omega
  | succ k =>
    have := h k (Nat.lt_succ_self k)
    rw [pow_succ, ← Nat.mul_assoc] at hsize
    omega

theorem Sound.apply (junk : ℕ → UInt8) (h : Sound size b l) {op : Op} (hop : op.Legal b) :
    ∃ b', op.apply junk b = some b' ∧ Sound size b' (op.after l) := by
  have hlength := h.length
  have hshort := h.short
  have hsmall := h.small
  have hlonger {src : List UInt8} (hop : b.ptr + src.length < 2 ^ 31) :
      (l ++ src).length < 2 ^ 31 := by
    rwa [List.length_append, hlength]
  cases op with
  | memcpyAppend src =>
    have hop : b.ptr + src.length < 2 ^ 31 := hop
    obtain ⟨b', happend, hvalid, hcontent, -⟩ := memcpyAppend_spec junk h.valid src
    obtain ⟨k, hsize, -, hleast⟩ := getSize_memcpyAppend happend
    have hsmall' := le_of_doubled hsize fun j hj => (hleast j hj).trans_lt hop
    exact ⟨b', happend, sound_of_valid hvalid (h.content ▸ hcontent) (hlonger hop) (by omega)⟩
  | printfAppend text =>
    have hop : b.ptr + text.length < 2 ^ 31 := hop
    obtain ⟨b', happend, hvalid, hcontent, hsize⟩ := printfAppend_spec junk h.valid hop
    exact ⟨b', happend, sound_of_valid hvalid (h.content ▸ hcontent) (hlonger hop) (by omega)⟩
  | nullTerminate =>
    obtain ⟨b', hterm, hvalid, hcontent, hsize⟩ := nullTerminate_spec junk h.valid
    refine ⟨b', hterm, sound_of_valid hvalid (hcontent.trans h.content) ?_ ?_⟩
    · rw [Op.after, hlength]
      exact hshort
    · split at hsize <;> omega
  | reset =>
    exact ⟨_, rfl, sound_of_valid ⟨h.valid.size_pos, Nat.zero_le _⟩ rfl (Nat.two_pow_pos 31) hsmall⟩
  | write bytes =>
    obtain ⟨b', hwrite, hvalid, hcontent, hsize⟩ := write_spec h.valid bytes hop.2
    exact ⟨b', hwrite, sound_of_valid hvalid (h.content ▸ hcontent) (hlonger hop.1) (by omega)⟩

theorem Sound.runOps (junk : ℕ → UInt8) (h : Sound size b l) {ops : List Op}
    (hops : LegalFrom junk b ops) :
    ∃ b', Buf.runOps junk b ops = some b' ∧ Sound size b' (ops.foldl Op.after l) := by
  induction ops generalizing b l with
  | nil => exact ⟨b, rfl, h⟩
  | cons op ops ih =>
    obtain ⟨b₁, hop, h₁⟩ := h.apply junk hops.1
    obtain ⟨b', hr, h'⟩ := ih h₁ (hops.2 b₁ hop)
    exact ⟨b', by rw [Buf.runOps, hop, Option.bind_some, hr], h'⟩

/-- Every operation of every run succeeds, which it does not when a byte is written outside
the buffer, and what is before the position is what has been appended since the last reset. -/
theorem run_sound (junk : ℕ → UInt8) (h : 0 < size) {ops : List Op}
    (hops : LegalFrom junk (alloc junk size) ops) :
    ∃ b, Buf.runOps junk (alloc junk size) ops = some b ∧
      Sound size b (ops.foldl Op.after []) ∧
      ∀ op : Op, op.Legal b → ∃ b', op.apply junk b = some b' ∧
        Sound size b' (op.after (ops.foldl Op.after [])) := by
  have hsize : (alloc junk size).getSize = size := by simp [alloc, getSize]
  have hstart : Sound size (alloc junk size) [] := sound_of_valid (alloc_valid junk h) rfl
    (Nat.two_pow_pos 31) (by rw [hsize]; exact Nat.le_max_left _ _)
  obtain ⟨b, hr, hb⟩ := hstart.runOps junk hops
  exact ⟨b, hr, hb, fun op hop => hb.apply junk hop⟩

/-- A text that does not fit, bytes written behind it, and a reset. -/
def greeting : List Op :=
  [.printfAppend [104, 105], .write [33], .nullTerminate, .reset, .memcpyAppend [111, 107]]

theorem run_sound_greeting :
    ∃ b, Buf.runOps (fun _ => 0) (alloc (fun _ => 0) 1) greeting = some b ∧
      Sound 1 b [111, 107] ∧
      ∀ op : Op, op.Legal b → ∃ b', op.apply (fun _ => 0) b = some b' ∧
        Sound 1 b' (op.after [111, 107]) := by
  have hops : LegalFrom (fun _ => 0) (alloc (fun _ => 0) 1) greeting := by decide +kernel
  exact run_sound (fun _ => 0) (by omega) hops

end Libuo.Buf
