import Mathlib.Data.List.Basic
import Mathlib.Data.List.DropRight
import Mathlib.Tactic.IntervalCases

/-!
# Splitting bytes into sextets

Three bytes carry four groups of six bits. An alphabet names the sixty-four
groups by characters and has one further character for padding. The padded text
of a byte string is defined from the front, block by block; it does not mention
any particular encoding loop.
-/

namespace Libuo.SextetCodec

def sextet0 (b0 : UInt8) : UInt8 := b0 >>> 2
def sextet1 (b0 b1 : UInt8) : UInt8 := (b0 &&& 0x03) <<< 4 ||| b1 >>> 4
def sextet2 (b1 b2 : UInt8) : UInt8 := (b1 &&& 0x0F) <<< 2 ||| b2 >>> 6
def sextet3 (b2 : UInt8) : UInt8 := b2 &&& 0x3F

def byte0 (a0 a1 : UInt8) : UInt8 := a0 <<< 2 ||| a1 >>> 4
def byte1 (a1 a2 : UInt8) : UInt8 := (a1 &&& 0x0F) <<< 4 ||| a2 >>> 2
def byte2 (a2 a3 : UInt8) : UInt8 := (a2 &&& 0x03) <<< 6 ||| a3

@[simp] theorem byte0_sextets (b0 b1 : UInt8) : byte0 (sextet0 b0) (sextet1 b0 b1) = b0 := by
  apply UInt8.eq_of_toBitVec_eq
  ext i hi
  simp only [byte0, sextet0, sextet1]
  interval_cases i <;> simp

@[simp] theorem byte1_sextets (b0 b1 b2 : UInt8) :
    byte1 (sextet1 b0 b1) (sextet2 b1 b2) = b1 := by
  apply UInt8.eq_of_toBitVec_eq
  ext i hi
  simp only [byte1, sextet1, sextet2]
  interval_cases i <;> simp

@[simp] theorem byte2_sextets (b1 b2 : UInt8) : byte2 (sextet2 b1 b2) (sextet3 b2) = b2 := by
  apply UInt8.eq_of_toBitVec_eq
  ext i hi
  simp only [byte2, sextet2, sextet3]
  interval_cases i <;> simp

/-- A byte whose two high bits are clear is one of the sixty-four groups. -/
private theorem lt_of_high_clear {s : UInt8} (h : s >>> 6 = 0) : s < 64 := by
  have hs := congrArg UInt8.toNat h
  simp only [UInt8.toNat_shiftRight] at hs
  norm_num [Nat.shiftRight_eq_div_pow] at hs
  exact UInt8.lt_iff_toNat_lt.mpr (by simpa using hs)

theorem sextet0_lt (b0 : UInt8) : sextet0 b0 < 64 := by
  apply lt_of_high_clear
  apply UInt8.eq_of_toBitVec_eq
  ext i hi
  simp only [sextet0]
  interval_cases i <;> simp

theorem sextet1_lt (b0 b1 : UInt8) : sextet1 b0 b1 < 64 := by
  apply lt_of_high_clear
  apply UInt8.eq_of_toBitVec_eq
  ext i hi
  simp only [sextet1]
  interval_cases i <;> simp

theorem sextet2_lt (b1 b2 : UInt8) : sextet2 b1 b2 < 64 := by
  apply lt_of_high_clear
  apply UInt8.eq_of_toBitVec_eq
  ext i hi
  simp only [sextet2]
  interval_cases i <;> simp

theorem sextet3_lt (b2 : UInt8) : sextet3 b2 < 64 := by
  apply lt_of_high_clear
  apply UInt8.eq_of_toBitVec_eq
  ext i hi
  simp only [sextet3]
  interval_cases i <;> simp

/-- Characters for the sixty-four groups, and a padding character apart from them. -/
structure Alphabet where
  btoa : UInt8 → UInt8
  atob : UInt8 → UInt8
  pad : UInt8
  atob_btoa : ∀ s < 64, atob (btoa s) = s
  btoa_ne_pad : ∀ s < 64, btoa s ≠ pad

namespace Alphabet

variable (A : Alphabet)

/-- The four characters of a full block. -/
def quad (b0 b1 b2 : UInt8) : List UInt8 :=
  [A.btoa (sextet0 b0), A.btoa (sextet1 b0 b1), A.btoa (sextet2 b1 b2), A.btoa (sextet3 b2)]

/-- The padded block of the one or two bytes left over by full blocks. -/
def tail : List UInt8 → List UInt8
  | [b0] => [A.btoa (sextet0 b0), A.btoa (sextet1 b0 0), A.pad, A.pad]
  | [b0, b1] => [A.btoa (sextet0 b0), A.btoa (sextet1 b0 b1), A.btoa (sextet2 b1 0), A.pad]
  | _ => []

/-- The text of a sequence of full blocks. -/
def quads (ts : List (UInt8 × UInt8 × UInt8)) : List UInt8 :=
  ts.flatMap fun t => A.quad t.1 t.2.1 t.2.2

end Alphabet

/-- The bytes of a sequence of full blocks. -/
def bytes (ts : List (UInt8 × UInt8 × UInt8)) : List UInt8 :=
  ts.flatMap fun t => [t.1, t.2.1, t.2.2]

@[simp] theorem bytes_nil : bytes [] = [] := rfl

@[simp] theorem bytes_cons (t : UInt8 × UInt8 × UInt8) (ts : List (UInt8 × UInt8 × UInt8)) :
    bytes (t :: ts) = t.1 :: t.2.1 :: t.2.2 :: bytes ts := rfl

@[simp] theorem bytes_append (ts us : List (UInt8 × UInt8 × UInt8)) :
    bytes (ts ++ us) = bytes ts ++ bytes us := List.flatMap_append

@[simp] theorem length_bytes (ts : List (UInt8 × UInt8 × UInt8)) :
    (bytes ts).length = 3 * ts.length := by
  induction ts with
  | nil => rfl
  | cons t ts ih => simp [ih]; omega

namespace Alphabet

variable (A : Alphabet)

@[simp] theorem quads_nil : A.quads [] = [] := rfl

@[simp] theorem quads_cons (t : UInt8 × UInt8 × UInt8) (ts : List (UInt8 × UInt8 × UInt8)) :
    A.quads (t :: ts) = A.quad t.1 t.2.1 t.2.2 ++ A.quads ts := rfl

@[simp] theorem quads_append (ts us : List (UInt8 × UInt8 × UInt8)) :
    A.quads (ts ++ us) = A.quads ts ++ A.quads us := List.flatMap_append

@[simp] theorem length_quads (ts : List (UInt8 × UInt8 × UInt8)) :
    (A.quads ts).length = 4 * ts.length := by
  induction ts with
  | nil => rfl
  | cons t ts ih => simp [quad, ih]; omega

end Alphabet

namespace Alphabet

variable (A : Alphabet)

/-- The padded text of a byte string. -/
def text : List UInt8 → List UInt8
  | b0 :: b1 :: b2 :: x => A.quad b0 b1 b2 ++ text x
  | r => A.tail r

theorem text_short {r : List UInt8} (h : r.length < 3) : A.text r = A.tail r := by
  match r, h with
  | [], _ => rfl
  | [_], _ => rfl
  | [_, _], _ => rfl
  | _ :: _ :: _ :: _, h => simp at h; omega

theorem text_blocks (ts : List (UInt8 × UInt8 × UInt8)) {r : List UInt8} (h : r.length < 3) :
    A.text (bytes ts ++ r) = A.quads ts ++ A.tail r := by
  induction ts with
  | nil => simpa using A.text_short h
  | cons t ts ih => simp [text, ih]

theorem length_tail {r : List UInt8} (h : r.length < 3) :
    (A.tail r).length = 4 * ((r.length + 2) / 3) := by
  match r, h with
  | [], _ => rfl
  | [_], _ => simp [tail]
  | [_, _], _ => simp [tail]
  | _ :: _ :: _ :: _, h => simp at h; omega

end Alphabet

namespace Alphabet

variable (A : Alphabet)

/-- The characters of the one or two bytes left over by full blocks, without padding. -/
def bareTail : List UInt8 → List UInt8
  | [b0] => [A.btoa (sextet0 b0), A.btoa (sextet1 b0 0)]
  | [b0, b1] => [A.btoa (sextet0 b0), A.btoa (sextet1 b0 b1), A.btoa (sextet2 b1 0)]
  | _ => []

/-- The text of a byte string without padding. -/
def bareText : List UInt8 → List UInt8
  | b0 :: b1 :: b2 :: x => A.quad b0 b1 b2 ++ bareText x
  | r => A.bareTail r

theorem bareText_short {r : List UInt8} (h : r.length < 3) : A.bareText r = A.bareTail r := by
  match r, h with
  | [], _ => rfl
  | [_], _ => rfl
  | [_, _], _ => rfl
  | _ :: _ :: _ :: _, h => simp at h; omega

theorem bareText_blocks (ts : List (UInt8 × UInt8 × UInt8)) {r : List UInt8}
    (h : r.length < 3) : A.bareText (bytes ts ++ r) = A.quads ts ++ A.bareTail r := by
  induction ts with
  | nil => simpa using A.bareText_short h
  | cons t ts ih => simp [bareText, ih]

theorem length_bareTail {r : List UInt8} (h : r.length < 3) :
    (A.bareTail r).length = (4 * r.length + 2) / 3 := by
  match r, h with
  | [], _ => rfl
  | [_], _ => simp [bareTail]
  | [_, _], _ => simp [bareTail]
  | _ :: _ :: _ :: _, h => simp at h; omega

end Alphabet

/-- Every byte string is a sequence of full blocks and at most two further bytes. -/
theorem exists_blocks (x : List UInt8) :
    ∃ ts r, x = bytes ts ++ r ∧ r.length = x.length % 3 := by
  induction h : x.length using Nat.strong_induction_on generalizing x with
  | _ n ih =>
    match x, h with
    | [], h => exact ⟨[], [], rfl, by simp [← h]⟩
    | [b0], h => exact ⟨[], [b0], rfl, by simp [← h]⟩
    | [b0, b1], h => exact ⟨[], [b0, b1], rfl, by simp [← h]⟩
    | b0 :: b1 :: b2 :: x, h =>
      obtain ⟨ts, r, hx, hr⟩ := ih x.length (by simp at h; omega) x rfl
      refine ⟨(b0, b1, b2) :: ts, r, by simp [← hx], ?_⟩
      simp only [List.length_cons] at h
      omega

theorem Alphabet.length_text (A : Alphabet) (x : List UInt8) :
    (A.text x).length = 4 * ((x.length + 2) / 3) := by
  obtain ⟨ts, r, rfl, hr⟩ := exists_blocks x
  have h3 : r.length < 3 := hr ▸ Nat.mod_lt _ (by omega)
  rw [A.text_blocks ts h3, List.length_append, A.length_quads, A.length_tail h3,
    List.length_append, length_bytes]
  omega

theorem Alphabet.length_bareText (A : Alphabet) (x : List UInt8) :
    (A.bareText x).length = (4 * x.length + 2) / 3 := by
  obtain ⟨ts, r, rfl, hr⟩ := exists_blocks x
  have h3 : r.length < 3 := hr ▸ Nat.mod_lt _ (by omega)
  rw [A.bareText_blocks ts h3, List.length_append, A.length_quads, A.length_bareTail h3,
    List.length_append, length_bytes]
  omega

/-- The characters of a text without padding name groups. -/
theorem Alphabet.mem_bareText (A : Alphabet) {x : List UInt8} {c : UInt8}
    (h : c ∈ A.bareText x) : ∃ s < 64, c = A.btoa s := by
  fun_induction bareText A x with
  | case1 b0 b1 b2 x ih =>
    rcases List.mem_append.mp h with h | h
    · simp only [quad, List.mem_cons, List.not_mem_nil, or_false] at h
      rcases h with rfl | rfl | rfl | rfl
      · exact ⟨_, sextet0_lt b0, rfl⟩
      · exact ⟨_, sextet1_lt b0 b1, rfl⟩
      · exact ⟨_, sextet2_lt b1 b2, rfl⟩
      · exact ⟨_, sextet3_lt b2, rfl⟩
    · exact ih h
  | case2 r hr =>
    unfold bareTail at h
    split at h
    · rename_i b0
      simp only [List.mem_cons, List.not_mem_nil, or_false] at h
      rcases h with rfl | rfl
      · exact ⟨_, sextet0_lt b0, rfl⟩
      · exact ⟨_, sextet1_lt b0 0, rfl⟩
    · rename_i b0 b1
      simp only [List.mem_cons, List.not_mem_nil, or_false] at h
      rcases h with rfl | rfl | rfl
      · exact ⟨_, sextet0_lt b0, rfl⟩
      · exact ⟨_, sextet1_lt b0 b1, rfl⟩
      · exact ⟨_, sextet2_lt b1 0, rfl⟩
    · simp at h

namespace Alphabet

variable {A B : Alphabet} {x : List UInt8}

theorem pad_not_mem_bareText : A.pad ∉ A.bareText x := by
  intro h
  obtain ⟨s, hs, hpad⟩ := A.mem_bareText h
  exact A.btoa_ne_pad s hs hpad.symm

/-- Padding is put behind the characters that name groups. -/
theorem text_eq_append_pad (A : Alphabet) (x : List UInt8) :
    ∃ k, A.text x = A.bareText x ++ List.replicate k A.pad := by
  obtain ⟨ts, r, rfl, hr⟩ := exists_blocks x
  have h3 : r.length < 3 := hr ▸ Nat.mod_lt _ (by omega)
  rw [A.text_blocks ts h3, A.bareText_blocks ts h3]
  match r, h3 with
  | [], _ => exact ⟨0, by simp [tail, bareTail]⟩
  | [b0], _ => exact ⟨2, by simp [tail, bareTail, List.replicate]⟩
  | [b0, b1], _ => exact ⟨1, by simp [tail, bareTail]⟩
  | _ :: _ :: _ :: _, h => simp only [List.length_cons] at h; omega

/-- Without its padding, a text is the one without padding. -/
theorem rdropWhile_text (A : Alphabet) (x : List UInt8) :
    (A.text x).rdropWhile (· = A.pad) = A.bareText x := by
  obtain ⟨k, hk⟩ := A.text_eq_append_pad x
  rw [hk]
  clear hk
  induction k with
  | zero =>
    rw [List.replicate_zero, List.append_nil, List.rdropWhile_eq_self_iff]
    intro hne hlast
    have hmem := List.getLast_mem hne
    rw [of_decide_eq_true hlast] at hmem
    exact pad_not_mem_bareText hmem
  | succ k ih =>
    rw [List.replicate_succ', ← List.append_assoc, List.rdropWhile_concat_pos _ _ _ (by simp), ih]

/-- Two alphabets that name the groups differently. -/
theorem bareText_map {f : UInt8 → UInt8} (h : ∀ s < 64, B.btoa s = f (A.btoa s))
    (x : List UInt8) : B.bareText x = (A.bareText x).map f := by
  fun_induction bareText A x with
  | case1 b0 b1 b2 x ih =>
    rw [bareText, ih, List.map_append]
    simp only [quad, List.map_cons, List.map_nil, h _ (sextet0_lt b0), h _ (sextet1_lt b0 b1),
      h _ (sextet2_lt b1 b2), h _ (sextet3_lt b2)]
  | case2 r hr =>
    match r, hr with
    | [], _ => rfl
    | [b0], _ =>
      simp only [bareText, bareTail, List.map_cons, List.map_nil, h _ (sextet0_lt b0),
        h _ (sextet1_lt b0 0)]
    | [b0, b1], _ =>
      simp only [bareText, bareTail, List.map_cons, List.map_nil, h _ (sextet0_lt b0),
        h _ (sextet1_lt b0 b1), h _ (sextet2_lt b1 0)]
    | b0 :: b1 :: b2 :: x, hr => exact absurd rfl (hr b0 b1 b2 x)

/-- The bytes that any characters without padding are decoded to. -/
def bytesOf (A : Alphabet) : List UInt8 → List UInt8
  | c0 :: c1 :: c2 :: c3 :: l =>
    byte0 (A.atob c0) (A.atob c1) :: byte1 (A.atob c1) (A.atob c2) ::
      byte2 (A.atob c2) (A.atob c3) :: bytesOf A l
  | [c0, c1, c2] => [byte0 (A.atob c0) (A.atob c1), byte1 (A.atob c1) (A.atob c2)]
  | [c0, c1] => [byte0 (A.atob c0) (A.atob c1)]
  | _ => []

@[simp] theorem bytesOf_nil (A : Alphabet) : A.bytesOf [] = [] := by simp [bytesOf]

theorem length_bytesOf (A : Alphabet) (l : List UInt8) :
    (A.bytesOf l).length = l.length / 4 * 3 + (l.length % 4 - 1) := by
  fun_induction bytesOf A l with
  | case1 c0 c1 c2 c3 l ih =>
    simp only [List.length_cons, ih]
    omega
  | case2 c0 c1 c2 => simp
  | case3 c0 c1 => simp
  | case4 l h4 h3 h2 =>
    match l, h4, h3, h2 with
    | [], _, _, _ => rfl
    | [c0], _, _, _ => simp
    | [c0, c1], _, _, h2 => exact absurd rfl (h2 c0 c1)
    | [c0, c1, c2], _, h3, _ => exact absurd rfl (h3 c0 c1 c2)
    | c0 :: c1 :: c2 :: c3 :: l, h4, _, _ => exact absurd rfl (h4 c0 c1 c2 c3 l)

/-- The characters of a byte string are decoded to it. -/
theorem bytesOf_bareText (A : Alphabet) (x : List UInt8) : A.bytesOf (A.bareText x) = x := by
  fun_induction bareText A x with
  | case1 b0 b1 b2 x ih =>
    simp only [quad, List.cons_append, List.nil_append, bytesOf, ih, A.atob_btoa _ (sextet0_lt b0),
      A.atob_btoa _ (sextet1_lt b0 b1), A.atob_btoa _ (sextet2_lt b1 b2),
      A.atob_btoa _ (sextet3_lt b2), byte0_sextets, byte1_sextets, byte2_sextets]
  | case2 r hr =>
    match r, hr with
    | [], _ => rfl
    | [b0], _ =>
      simp only [bareTail, bytesOf, A.atob_btoa _ (sextet0_lt b0), A.atob_btoa _ (sextet1_lt b0 0),
        byte0_sextets]
    | [b0, b1], _ =>
      simp only [bareTail, bytesOf, A.atob_btoa _ (sextet0_lt b0), A.atob_btoa _ (sextet1_lt b0 b1),
        A.atob_btoa _ (sextet2_lt b1 0), byte0_sextets, byte1_sextets]
    | b0 :: b1 :: b2 :: x, hr => exact absurd rfl (hr b0 b1 b2 x)

end Alphabet

end Libuo.SextetCodec
