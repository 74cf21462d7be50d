import Libuo.Base64
import Mathlib.Data.List.Induction

/-!
# Decoding what was encoded

The encoder produces the padded text for every byte string below `2 ^ 62` bytes,
in place or into another buffer. The decoder takes it back exactly when the text
ends in padding: its look-ahead tests the two characters that would follow the
last full block, so that without padding it tests bytes behind the text.
-/

namespace Libuo.Base64
open CMemory CStrings SextetCodec

variable {α : Type} {m : Memory} {dst src a b stop len : ℕ} {o x r : List UInt8}

private theorem and_not_three (x : UInt64) : (x &&& ~~~(3 : UInt64)).toNat = x.toNat / 4 * 4 := by
  have h : x &&& ~~~(3 : UInt64) = (x >>> 2) <<< 2 := by
    apply UInt64.eq_of_toBitVec_eq
    ext i hi
    interval_cases i <;> simp
  rw [h]
  have hx := x.toNat_lt
  have h2 : 2 ^ (UInt64.toNat 2 % 64) = 4 := rfl
  simp only [UInt64.toNat_shiftLeft, UInt64.toNat_shiftRight, Nat.shiftRight_eq_div_pow,
    Nat.shiftLeft_eq, h2]
  omega

theorem base64Len_eq (len : ℕ) : base64Len len = 4 * ((len % 2 ^ 62 + 2) / 3) := by
  rw [base64Len, and_not_three]
  have h3 : UInt64.toNat 3 = 3 := rfl
  have h4 : UInt64.toNat 4 = 4 := rfl
  have hlen : len * 4 % 2 ^ 64 = len % 2 ^ 62 * 4 := Nat.mul_mod_mul_right 4 len (2 ^ 62)
  have hlt : len % 2 ^ 62 < 2 ^ 62 := Nat.mod_lt _ (by omega)
  simp only [UInt64.toNat_add, UInt64.toNat_div, UInt64.toNat_mul, UInt64.toNat_ofNat', h3, h4,
    Nat.mod_mul_mod, hlen]
  generalize len % 2 ^ 62 = k at hlt
  rw [Nat.mod_eq_of_lt (show k * 4 / 3 + 3 < 2 ^ 64 by omega)]
  omega

theorem length_text (h : x.length < 2 ^ 62) :
    (alphabet.text x).length = base64Len x.length := by
  rw [alphabet.length_text, base64Len_eq, Nat.mod_eq_of_lt h]

private theorem store_block (h : Mapped m a 4) (c0 c1 c2 c3 : UInt8) (k : Memory → Option α) :
    ((store (write m (a + 4) o) (a + 3) c3).bind fun m =>
      (store m (a + 2) c2).bind fun m => (store m (a + 1) c1).bind fun m =>
        (store m a c0).bind k) = k (write m a ([c0, c1, c2, c3] ++ o)) := by
  rw [store_write_below (h 3 (by omega)), Option.bind_some,
    store_write_below (h 2 (by omega)), Option.bind_some,
    store_write_below (h 1 (by omega)), Option.bind_some,
    store_write_below (by simpa using h 0 (by omega)), Option.bind_some]
  rfl

theorem encodeTail_eq (len : ℕ) (hr : r.length = len % 3) (hs : Holds m b r)
    (hm : Mapped m a (alphabet.tail r).length) :
    encodeTail m (a + (alphabet.tail r).length) (b + r.length) len =
      some (write m a (alphabet.tail r), a, b) := by
  have h3 := Nat.mod_lt len (show 3 > 0 by omega)
  match r, hr with
  | [], hr =>
    simp [encodeTail, ← hr, Alphabet.tail]
  | [b0], hr =>
    have h0 : m b = some b0 := hs.1
    have hw := store_block (o := []) hm (btoa (sextet0 b0)) (btoa (sextet1 b0 0)) (chr '=')
      (chr '=') (fun m => some (m, a, b))
    simpa [encodeTail, ← hr, Alphabet.tail, h0, sextet0, sextet1, alphabet] using hw
  | [b0, b1], hr =>
    have h0 : m b = some b0 := hs.1
    have h1 : m (b + 1) = some b1 := hs.2.1
    have hw := store_block (o := []) hm (btoa (sextet0 b0)) (btoa (sextet1 b0 b1))
      (btoa (sextet2 b1 0)) (chr '=') (fun m => some (m, a, b))
    simpa [encodeTail, ← hr, Alphabet.tail, h0, h1, sextet0, sextet1, sextet2, alphabet] using hw
  | _ :: _ :: _ :: _, hr =>
    simp only [List.length_cons] at hr
    omega

/-- One round of the encoding loop, with the text so far standing above `a`. -/
theorem encodeLoop_step (A : Alphabet) {b0 b1 b2 : UInt8} (hs : Holds m b [b0, b1, b2])
    (hm : Mapped m a 4) (hd : dst ≤ a) (ho : b + 3 ≤ a + 4 ∨ a + 4 + o.length ≤ b) :
    encodeLoop A.btoa dst (write m (a + 4) o) (a + 4) (b + 3) =
      encodeLoop A.btoa dst (write m a (A.quad b0 b1 b2 ++ o)) a b := by
  obtain ⟨k0, k1, k2, -⟩ := hs.apart ho.symm
  rw [encodeLoop, if_pos (by omega)]
  simp only [Option.bind_eq_bind, k0, k1, k2, Option.bind_some]
  exact store_block hm _ _ _ _ _

theorem encodeLoop_eq (A : Alphabet) (ts : List (UInt8 × UInt8 × UInt8))
    (hs : Holds m src (bytes ts)) (hm : Mapped m dst (A.quads ts).length)
    (ho : src ≤ dst ∨ dst + (A.quads ts).length + o.length ≤ src) :
    encodeLoop A.btoa dst (write m (dst + 4 * ts.length) o) (dst + 4 * ts.length)
      (src + 3 * ts.length) = some (write m dst (A.quads ts ++ o)) := by
  induction ts using List.reverseRec generalizing o with
  | nil =>
    rw [encodeLoop.eq_def]
    simp
    split <;> simp
  | append_singleton ts t ih =>
    simp only [Alphabet.quads_append, bytes_append, holds_append, List.length_append,
      Alphabet.length_quads, length_bytes, List.length_singleton] at hs hm ho
    have hblock : Mapped m (dst + 4 * ts.length) 4 := fun i hi => by
      rw [Nat.add_assoc]
      exact hm _ (by omega)
    have hstep := encodeLoop_step A (o := o) hs.2 hblock (Nat.le_add_right dst _) (by omega)
    have hrest := ih (o := A.quad t.1 t.2.1 t.2.2 ++ o) hs.1
      (hm.mono (by simp)) (by simp [Alphabet.quad]; omega)
    simpa [Nat.mul_add, Nat.add_assoc] using hstep.trans hrest

/-- The encoder writes the padded text, also in place, and nothing else. -/
theorem encode_eq (hx : Holds m src x) (hlen : x.length < 2 ^ 62)
    (hm : Mapped m dst (base64Len x.length))
    (ho : src ≤ dst ∨ dst + base64Len x.length ≤ src) :
    encode m dst src x.length =
      some (write m dst (alphabet.text x), dst + base64Len x.length) := by
  obtain ⟨ts, r, rfl, hr⟩ := exists_blocks x
  have h3 : r.length < 3 := hr ▸ Nat.mod_lt _ (by omega)
  rw [← length_text hlen] at hm ho
  rw [encode, ← length_text hlen]
  simp only [alphabet.text_blocks ts h3, List.length_append, Alphabet.length_quads,
    holds_append, length_bytes] at hx hm ho hr ⊢
  have htail := encodeTail_eq (m := m) (a := dst + 4 * ts.length)
    (3 * ts.length + r.length) hr hx.2 (fun i hi => by rw [Nat.add_assoc]; exact hm _ (by omega))
  have hloop : encodeLoop btoa dst _ _ _ = _ := encodeLoop_eq alphabet (o := alphabet.tail r) ts
    hx.1 (hm.mono (by simp)) (by simpa [Nat.add_assoc] using ho)
  simp only [← Nat.add_assoc] at htail ⊢
  simp [htail, hloop]

theorem moreBlocks_of_lt (h : a + 4 < stop) : moreBlocks m a stop = some true := by
  rw [moreBlocks, if_pos h]

/-- At the end of the text, the test is about the two bytes at distance two and three. -/
theorem moreBlocks_eq {c2 c3 : UInt8} (h : stop ≤ a + 4) (h2 : m (a + 2) = some c2)
    (h3 : m (a + 3) = some c3) :
    moreBlocks m a stop = some (c2 != chr '=' && c3 != chr '=') := by
  rw [moreBlocks, if_neg (by omega)]
  by_cases hc : c2 = chr '=' <;> simp [h2, h3, hc]

theorem decodeQuad_any (A : Alphabet) {c0 c1 c2 c3 : UInt8} (hc : Holds m a [c0, c1, c2, c3])
    (hm : Mapped m (dst + o.length) 3) (ho : dst + o.length ≤ a ∨ a + 4 ≤ dst) :
    decodeQuad A.atob (write m dst o) a (dst + o.length) =
      some (write m dst (o ++ A.bytesOf [c0, c1, c2, c3])) := by
  obtain ⟨k0, k1, k2, k3, -⟩ := hc.apart ho
  simp only [decodeQuad, Option.bind_eq_bind, k0, k1, k2, k3, Option.bind_some]
  obtain ⟨b0, hb0⟩ : ∃ b0, b0 = byte0 (A.atob c0) (A.atob c1) := ⟨_, rfl⟩
  obtain ⟨b1, hb1⟩ : ∃ b1, b1 = byte1 (A.atob c1) (A.atob c2) := ⟨_, rfl⟩
  change (store (write m dst o) _ (byte0 _ _)).bind
    (fun m => (store m _ (byte1 _ _)).bind (fun m => store m _ (byte2 _ _))) = _
  rw [Alphabet.bytesOf, Alphabet.bytesOf_nil, ← hb0, ← hb1]
  have w1 := store_write_above (m := m) (p := dst) (l := o ++ [b0]) (b := b1)
    (by simpa [Nat.add_assoc] using hm 1 (by omega))
  have w2 := store_write_above (m := m) (p := dst) (l := o ++ [b0] ++ [b1])
    (b := byte2 (A.atob c2) (A.atob c3)) (by simpa [Nat.add_assoc] using hm 2 (by omega))
  simp only [List.length_append, List.length_singleton, ← Nat.add_assoc] at w1 w2
  rw [store_write_above (by simpa using hm 0 (by omega)), Option.bind_some, w1, Option.bind_some,
    w2]
  simp

/-- The decoding of an encoded block appends its three bytes. -/
theorem decodeQuad_eq (A : Alphabet) {b0 b1 b2 : UInt8} (hc : Holds m a (A.quad b0 b1 b2))
    (hm : Mapped m (dst + o.length) 3) (ho : dst + o.length ≤ a ∨ a + 4 ≤ dst) :
    decodeQuad A.atob (write m dst o) a (dst + o.length) =
      some (write m dst (o ++ [b0, b1, b2])) := by
  have hbytes : A.bytesOf (A.quad b0 b1 b2) = [b0, b1, b2] := A.bytesOf_bareText [b0, b1, b2]
  rw [← hbytes]
  exact decodeQuad_any A hc hm ho

theorem decodeBlock_eq {b0 b1 b2 : UInt8} (hc : Holds m a (alphabet.quad b0 b1 b2))
    (hm : Mapped m (dst + o.length) 3) (ho : dst + o.length ≤ a ∨ a + 4 ≤ dst) :
    decodeBlock (write m dst o) a (dst + o.length) =
      some (write m dst (o ++ [b0, b1, b2])) :=
  decodeQuad_eq alphabet hc hm ho

/-- An encoded block is always taken: neither of its last two characters is padding. -/
theorem moreBlocks_quad {b0 b1 b2 : UInt8} (hc : Holds m a (alphabet.quad b0 b1 b2)) :
    moreBlocks m a stop = some true := by
  rcases Nat.lt_or_ge (a + 4) stop with h | h
  · exact moreBlocks_of_lt h
  · have h2 : btoa (sextet2 b1 b2) ≠ chr '=' := alphabet.btoa_ne_pad _ (sextet2_lt b1 b2)
    have h3 : btoa (sextet3 b2) ≠ chr '=' := alphabet.btoa_ne_pad _ (sextet3_lt b2)
    rw [moreBlocks_eq h hc.2.2.1 hc.2.2.2.1]
    simp [alphabet, h2, h3]

theorem decodeLoop_blocks (stop : ℕ) (ts : List (UInt8 × UInt8 × UInt8)) (fuel : ℕ)
    (hc : Holds m a (alphabet.quads ts)) (hm : Mapped m (dst + o.length) (3 * ts.length))
    (ho : dst + o.length ≤ a ∨ a + 4 * ts.length ≤ dst) :
    decodeLoop stop (ts.length + fuel) (write m dst o) a (dst + o.length) =
      decodeLoop stop fuel (write m dst (o ++ bytes ts)) (a + 4 * ts.length)
        (dst + o.length + 3 * ts.length) := by
  induction ts generalizing a o with
  | nil => simp
  | cons t ts ih =>
    simp only [Alphabet.quads_cons, holds_append, List.length_cons] at hc hm ho ⊢
    have hquad : Holds (write m dst o) a (alphabet.quad t.1 t.2.1 t.2.2) := by
      refine hc.1.apart (ho.imp_right fun h => ?_)
      change a + 4 ≤ dst
      omega
    have hblock := decodeBlock_eq hc.1 (hm.mono (by omega)) (by omega)
    rw [show ts.length + 1 + fuel = ts.length + fuel + 1 by omega, decodeLoop,
      moreBlocks_quad hquad]
    simp only [Option.bind_eq_bind, Option.bind_some, if_true, hblock]
    have hrest := ih (a := a + 4) (o := o ++ [t.1, t.2.1, t.2.2]) hc.2
      (fun i hi => by
        rw [List.length_append, ← Nat.add_assoc, Nat.add_assoc _ _ i]
        exact hm _ (by simp; omega))
      (by simp; omega)
    simp only [List.length_append, List.length_cons, List.length_nil, ← Nat.add_assoc] at hrest
    rw [hrest, show a + 4 + 4 * ts.length = a + 4 * (ts.length + 1) by omega,
      show dst + o.length + 0 + 1 + 1 + 1 + 3 * ts.length =
        dst + o.length + 3 * (ts.length + 1) by omega]
    simp

/-- The padded block that ends a text is decoded behind the loop. -/
theorem decodeTail_eq (hr : r.length = 1 ∨ r.length = 2) (hc : Holds m a (alphabet.tail r))
    (hm : Mapped m (dst + o.length) r.length) (ho : dst + o.length ≤ a ∨ a + 4 ≤ dst) :
    moreBlocks (write m dst o) a (a + 4) = some false ∧
      decodeTail (write m dst o) a (dst + o.length) (a + 4) =
        some (write m dst (o ++ r), dst + o.length + r.length) := by
  have hkeep : Holds (write m dst o) a (alphabet.tail r) := by
    refine hc.apart ?_
    rw [alphabet.length_tail (by omega)]
    omega
  match r, hr with
  | [b0], _ =>
    obtain ⟨k0, k1, k2, k3, -⟩ := hkeep
    have s0 := alphabet.atob_btoa _ (sextet0_lt b0)
    have s1 := alphabet.atob_btoa _ (sextet1_lt b0 0)
    refine ⟨by rw [moreBlocks_eq (Nat.le_refl _) k2 k3]; simp [alphabet], ?_⟩
    simp only [alphabet] at k0 k1 k2 s0 s1
    rw [decodeTail, if_pos (by omega)]
    simp only [Option.bind_eq_bind, k0, k1, k2, Option.bind_some, s0, s1, atob_pad]
    rw [store_write_above (by simpa using hm 0 (by simp)), Option.bind_some]
    change some (write m dst (o ++ [byte0 _ _]), _) = _
    rw [byte0_sextets, List.length_singleton]
  | [b0, b1], _ =>
    obtain ⟨k0, k1, k2, k3, -⟩ := hkeep
    have s0 := alphabet.atob_btoa _ (sextet0_lt b0)
    have s1 := alphabet.atob_btoa _ (sextet1_lt b0 b1)
    have s2 := alphabet.atob_btoa _ (sextet2_lt b1 0)
    have hpad := atob_btoa_ne_pad (sextet2_lt b1 0)
    refine ⟨by rw [moreBlocks_eq (Nat.le_refl _) k2 k3]; simp [alphabet], ?_⟩
    simp only [alphabet] at k0 k1 k2 s0 s1 s2
    rw [s2] at hpad
    have hstore := store_write_above (m := m) (p := dst) (l := o ++ [b0]) (b := b1)
      (by simpa [Nat.add_assoc] using hm 1 (by simp))
    rw [decodeTail, if_pos (by omega)]
    simp only [Option.bind_eq_bind, k0, k1, k2, Option.bind_some, s0, s1, s2,
      bne_iff_ne, ne_eq, hpad, not_false_eq_true, if_true]
    rw [store_write_above (by simpa using hm 0 (by simp)), Option.bind_some]
    change (store (write m dst (o ++ [byte0 _ _])) _ (byte1 _ _)).bind _ = _
    rw [byte0_sextets, byte1_sextets]
    simp only [List.length_append, List.length_singleton, ← Nat.add_assoc] at hstore
    rw [hstore]
    simp
  | [], hr => simp at hr
  | _ :: _ :: _ :: _, hr => simp at hr

/-- A padded text is decoded to the bytes it was made from, also in place. -/
theorem decode_padded (hx : x.length % 3 ≠ 0) (hc : Holds m src (alphabet.text x))
    (hm : Mapped m dst x.length)
    (ho : dst ≤ src ∨ src + (alphabet.text x).length ≤ dst) :
    decode (x.length / 3 + 1) m dst src (alphabet.text x).length =
      some (write m dst x, dst + x.length) := by
  obtain ⟨ts, r, rfl, hr⟩ := exists_blocks x
  have hr3 : r.length < 3 := hr ▸ Nat.mod_lt _ (by omega)
  have h12 : r.length = 1 ∨ r.length = 2 := by omega
  have h4 : (alphabet.tail r).length = 4 := by
    rw [alphabet.length_tail hr3]
    omega
  simp only [alphabet.text_blocks ts hr3, List.length_append, Alphabet.length_quads,
    holds_append, length_bytes, h4] at hc hm ho ⊢
  have hblocks := decodeLoop_blocks (o := []) (src + (4 * ts.length + 4)) ts 1 hc.1
    (hm.mono (by simp)) (by simp; omega)
  have htail := decodeTail_eq (o := bytes ts) h12 hc.2
    (fun i hi => by
      rw [length_bytes, Nat.add_assoc]
      exact hm _ (by omega))
    (by simp; omega)
  simp only [write_nil, List.length_nil, Nat.add_zero, List.nil_append, length_bytes,
    Nat.add_assoc] at hblocks htail
  rw [decode, show (3 * ts.length + r.length) / 3 = ts.length by omega, hblocks, decodeLoop]
  simp [htail.1, htail.2]

theorem decodeLoop_cases {fuel : ℕ} {m' : Memory} {a' b' : ℕ}
    (h : decodeLoop stop (fuel + 1) m a b = some (m', a', b')) :
    (moreBlocks m a stop = some false ∧ m' = m ∧ a' = a ∧ b' = b) ∨
      (moreBlocks m a stop = some true ∧ ∃ m1, decodeBlock m a b = some m1 ∧
        decodeLoop stop fuel m1 (a + 4) (b + 3) = some (m', a', b')) := by
  simp only [decodeLoop, Option.bind_eq_bind, Option.bind_eq_some_iff] at h
  obtain ⟨more, hmore, h⟩ := h
  cases more with
  | false =>
    obtain ⟨rfl, rfl, rfl⟩ : m = m' ∧ a = a' ∧ b = b' := by simpa using h
    exact .inl ⟨hmore, rfl, rfl, rfl⟩
  | true => exact .inr ⟨hmore, by simpa [Option.bind_eq_some_iff] using h⟩

theorem decodeQuad_frame {atob : UInt8 → UInt8} {m' : Memory} {q : ℕ}
    (h : decodeQuad atob m a b = some m') (hq : q < b ∨ b + 3 ≤ q) : m' q = m q := by
  simp only [decodeQuad, Option.bind_eq_bind, Option.bind_eq_some_iff] at h
  obtain ⟨_, -, _, -, _, -, _, -, m0, hs0, m1, hs1, hs2⟩ := h
  rw [store_ne hs2 (by omega), store_ne hs1 (by omega), store_ne hs0 (by omega)]

theorem decodeLoop_mono {fuel : ℕ} {r : Memory × ℕ × ℕ} (k : ℕ)
    (h : decodeLoop stop fuel m a b = some r) : decodeLoop stop (k + fuel) m a b = some r := by
  obtain ⟨m', a', b'⟩ := r
  induction fuel generalizing m a b with
  | zero => simp [decodeLoop] at h
  | succ fuel ih =>
    obtain ⟨hmore, rfl, rfl, rfl⟩ | ⟨hmore, m1, hblock, h⟩ := decodeLoop_cases h
    · simp [decodeLoop, hmore]
    · simpa [← Nat.add_assoc, decodeLoop, hmore, hblock] using ih h

theorem decodeLoop_le {fuel : ℕ} {m' : Memory} {a' b' : ℕ}
    (h : decodeLoop stop fuel m a b = some (m', a', b')) : b ≤ b' := by
  induction fuel generalizing m a b with
  | zero => simp [decodeLoop] at h
  | succ fuel ih =>
    obtain ⟨-, -, -, rfl⟩ | ⟨-, m1, -, h⟩ := decodeLoop_cases h
    · exact Nat.le_refl _
    · exact Nat.le_trans (Nat.le_add_right b 3) (ih h)

/-- With padding behind the text, the loop takes no block beyond its end. -/
theorem decodeLoop_bound {fuel k : ℕ} {m' : Memory} {a' b' : ℕ}
    (hpad : m (a + 4 * k + 2) = some (chr '=')) (hb : a + 4 * k + 2 < b)
    (h : decodeLoop (a + 4 * k) fuel m a b = some (m', a', b')) : b' ≤ b + 3 * k := by
  induction fuel generalizing m a b k with
  | zero => simp [decodeLoop] at h
  | succ fuel ih =>
    obtain ⟨-, -, -, rfl⟩ | ⟨hmore, m1, hblock, h⟩ := decodeLoop_cases h
    · exact Nat.le_add_right _ _
    · cases k with
      | zero =>
        rw [moreBlocks, if_neg (by omega)] at hmore
        simp only [Nat.mul_zero, Nat.add_zero] at hpad
        simp [hpad] at hmore
      | succ k =>
        have he : a + 4 * (k + 1) = a + 4 + 4 * k := by omega
        rw [he] at h hpad hb
        have := ih ((decodeQuad_frame hblock (.inl hb)).trans hpad) (by omega) h
        omega

theorem decodeTail_le {m' : Memory} {b' : ℕ} (h : decodeTail m a b stop = some (m', b')) :
    b ≤ b' ∧ b' ≤ b + 2 := by
  unfold decodeTail at h
  split_ifs at h
  · simp only [Option.bind_eq_bind, Option.bind_eq_some_iff] at h
    obtain ⟨_, -, _, -, _, -, _, -, h⟩ := h
    split_ifs at h
    · simp only [Option.bind_eq_some_iff, Option.some.injEq, Prod.mk.injEq] at h
      obtain ⟨_, -, -, rfl⟩ := h
      omega
    · simp only [Option.some.injEq, Prod.mk.injEq] at h
      omega
  · simp only [Option.some.injEq, Prod.mk.injEq] at h
    omega

/-- A text without padding runs on into a further block when neither of the two
bytes tested behind it is padding. -/
theorem decode_runs_on {ts : List (UInt8 × UInt8 × UInt8)} {fuel : ℕ} {m' : Memory} {b' : ℕ}
    {c2 c3 : UInt8} (hc : Holds m src (alphabet.quads ts)) (hm : Mapped m dst (3 * ts.length))
    (h2 : m (src + 4 * ts.length + 2) = some c2) (h3 : m (src + 4 * ts.length + 3) = some c3)
    (hc2 : c2 ≠ chr '=') (hc3 : c3 ≠ chr '=') (ho : src + 4 * ts.length + 4 ≤ dst)
    (h : decode (ts.length + fuel) m dst src (4 * ts.length) = some (m', b')) :
    dst + 3 * ts.length < b' := by
  have hblocks := decodeLoop_blocks (o := []) (src + 4 * ts.length) ts fuel hc
    (by simpa using hm) (by simp; omega)
  simp only [write_nil, List.length_nil, Nat.add_zero, List.nil_append] at hblocks
  have k2 := (write_apply_of_lt (l := bytes ts) (m := m) (p := dst)
    (show src + 4 * ts.length + 2 < dst by omega)).trans h2
  have k3 := (write_apply_of_lt (l := bytes ts) (m := m) (p := dst)
    (show src + 4 * ts.length + 3 < dst by omega)).trans h3
  simp only [decode, hblocks, Option.bind_eq_bind, Option.bind_eq_some_iff] at h
  obtain ⟨⟨m1, a1, b1⟩, hloop, htail⟩ := h
  have hb : b1 ≤ b' := (decodeTail_le htail).1
  cases fuel with
  | zero => simp [decodeLoop] at hloop
  | succ fuel =>
    have hmore : moreBlocks (write m dst (bytes ts)) (src + 4 * ts.length) (src + 4 * ts.length) =
        some true := by
      rw [moreBlocks_eq (by omega) k2 k3]
      simp [hc2, hc3]
    obtain ⟨hstop, -⟩ | ⟨-, m1', -, hloop⟩ := decodeLoop_cases hloop
    · simp [hmore] at hstop
    · have := decodeLoop_le hloop
      omega

/-- Wherever `x` lies, encoding it succeeds, and decoding exactly the characters
written, from any memory that holds them, yields `x` and touches nothing else. The
characters may be copied or decoded in place; what lies behind them is arbitrary. -/
def RoundTrips (x : List UInt8) : Prop :=
  ∀ (m : Memory) (dst src : ℕ), Holds m src x → Mapped m dst (base64Len x.length) →
    (src ≤ dst ∨ dst + base64Len x.length ≤ src) →
    ∃ m' stop, encode m dst src x.length = some (m', stop) ∧
      ∀ (n : Memory) (d s : ℕ), (∀ i < stop - dst, n (s + i) = m' (dst + i)) →
        Mapped n d x.length → (d ≤ s ∨ s + (stop - dst) ≤ d) →
        ∃ fuel, decode fuel n d s (stop - dst) = some (write n d x, d + x.length)

theorem roundTrips_padded (hx : x.length % 3 ≠ 0) (hlen : x.length < 2 ^ 62) :
    RoundTrips x := by
  intro m dst src hs hm ho
  refine ⟨_, _, encode_eq hs hlen hm ho, fun n d s hc hd ho' => ⟨x.length / 3 + 1, ?_⟩⟩
  rw [Nat.add_sub_cancel_left] at hc ho' ⊢
  rw [← length_text hlen] at hc ho' ⊢
  refine decode_padded hx (holds_of_get fun i hi => ?_) hd ho'
  rw [hc i hi, write_apply_add hi]

/-- A memory that holds `x` at address zero and has every address mapped. -/
private def full (x : List UInt8) : Memory := write (fun _ => some 0) 0 x

private theorem mapped_full (x : List UInt8) (p n : ℕ) : Mapped (full x) p n := by
  intro i _
  simp only [full, write, Nat.zero_le, true_and, Nat.zero_add, Nat.sub_zero]
  split_ifs with h <;> simp [h]

/-- The first `len` bytes from `p` on, moved to address zero, and `c` everywhere else. -/
private def excerpt (m : Memory) (p len : ℕ) (c : UInt8) : Memory := fun q =>
  if q < len then m (p + q) else some c

theorem encode_stop {m' : Memory} (h : encode m dst src len = some (m', stop)) :
    stop = dst + base64Len len := by
  simp only [encode, Option.bind_eq_bind, Option.bind_eq_some_iff, Option.some.injEq,
    Prod.mk.injEq] at h
  obtain ⟨_, -, _, -, -, rfl⟩ := h
  rfl

/-- Without padding, the decoder runs on into the bytes behind the text. -/
theorem not_roundTrips_unpadded (hx : x.length % 3 = 0) (hlen : x.length < 2 ^ 62) :
    ¬ RoundTrips x := by
  intro h
  obtain ⟨m', stop, henc, hdec⟩ := h (full x) x.length 0 (holds_write _ _ _)
    (mapped_full _ _ _) (.inl (Nat.zero_le _))
  rw [encode_eq (m := full x) (holds_write _ _ _) hlen (mapped_full _ _ _)
    (.inl (Nat.zero_le _))] at henc
  obtain ⟨rfl, rfl⟩ : write (full x) x.length (alphabet.text x) = m' ∧
    x.length + base64Len x.length = stop := by simpa using henc
  obtain ⟨ts, r, rfl, hr⟩ := exists_blocks x
  obtain rfl : r = [] := List.length_eq_zero_iff.mp (by omega)
  have htext := alphabet.text_blocks ts (r := []) (by simp)
  have hL : base64Len (bytes ts ++ []).length = 4 * ts.length := by
    rw [← length_text hlen, htext]
    simp [Alphabet.tail]
  simp only [List.append_nil, Alphabet.tail, length_bytes] at htext hL hdec
  rw [Nat.add_sub_cancel_left, htext, hL] at hdec
  let n := excerpt (write (full (bytes ts)) (3 * ts.length) (alphabet.quads ts)) (3 * ts.length)
    (4 * ts.length) (chr 'A')
  have hn : ∀ i < 4 * ts.length, n (0 + i) =
      write (full (bytes ts)) (3 * ts.length) (alphabet.quads ts) (3 * ts.length + i) := by
    intro i hi
    simp [n, excerpt, hi]
  have hout : ∀ q, 4 * ts.length ≤ q → n q = some (chr 'A') := fun q hq => by
    simp [n, excerpt, Nat.not_lt.mpr hq]
  have hd : Mapped n (4 * ts.length + 4) (3 * ts.length) := fun i _ => by
    rw [hout _ (by omega)]
    rfl
  obtain ⟨fuel, hrun⟩ := hdec n (4 * ts.length + 4) 0 hn hd (by omega)
  have hrun' : decode (ts.length + fuel) n (4 * ts.length + 4) 0 (4 * ts.length) =
      some (write n (4 * ts.length + 4) (bytes ts), 4 * ts.length + 4 + 3 * ts.length) := by
    simp only [decode, Option.bind_eq_bind, Option.bind_eq_some_iff] at hrun ⊢
    obtain ⟨r, hloop, htail⟩ := hrun
    exact ⟨r, decodeLoop_mono _ hloop, htail⟩
  have hc : Holds n 0 (alphabet.quads ts) := holds_of_get fun i hi => by
    rw [hn i (by simpa using hi), write_apply_add hi]
  exact Nat.lt_irrefl _ (decode_runs_on hc hd (hout _ (by omega)) (hout _ (by omega))
    (by decide) (by decide) (by omega) hrun')

/-- When `src_len * 4` wraps around, too few characters are written to carry `x`. -/
theorem not_roundTrips_wrapped (hlen : 2 ^ 62 ≤ x.length) : ¬ RoundTrips x := by
  intro h
  obtain ⟨m', stop, henc, hdec⟩ := h (full x) x.length 0 (holds_write _ _ _)
    (mapped_full _ _ _) (.inl (Nat.zero_le _))
  obtain rfl := encode_stop henc
  rw [Nat.add_sub_cancel_left] at hdec
  obtain ⟨k, hk, hsmall⟩ : ∃ k, base64Len x.length = 4 * k ∧ 3 * k + 2 < x.length := by
    refine ⟨(x.length % 2 ^ 62 + 2) / 3, base64Len_eq _, ?_⟩
    have := Nat.mod_add_div x.length (2 ^ 62)
    have : 1 ≤ x.length / 2 ^ 62 := Nat.div_pos hlen (by omega)
    omega
  rw [hk] at hdec
  let n := excerpt m' x.length (4 * k) (chr '=')
  have hout : ∀ q, 4 * k ≤ q → n q = some (chr '=') := fun q hq => by
    simp [n, excerpt, Nat.not_lt.mpr hq]
  obtain ⟨fuel, hrun⟩ := hdec n (4 * k + 4) 0 (fun i hi => by simp [n, excerpt, hi])
    (fun i _ => by rw [hout _ (by omega)]; rfl) (by omega)
  simp only [decode, Option.bind_eq_bind, Option.bind_eq_some_iff] at hrun
  obtain ⟨⟨m1, a1, b1⟩, hloop, htail⟩ := hrun
  have hb := decodeLoop_bound (k := k) (hout _ (by omega)) (by omega) hloop
  have hb' : 4 * k + 4 + x.length ≤ b1 + 2 := (decodeTail_le htail).2
  omega

/-- Decoding inverts encoding exactly for the texts that end in padding. -/
theorem roundTrips_iff_padding (x : List UInt8) :
    RoundTrips x ↔ x.length % 3 ≠ 0 ∧ x.length < 2 ^ 62 := by
  refine ⟨fun h => ⟨fun hx => ?_, ?_⟩, fun h => roundTrips_padded h.1 h.2⟩
  · rcases Nat.lt_or_ge x.length (2 ^ 62) with hlen | hlen
    · exact not_roundTrips_unpadded hx hlen h
    · exact not_roundTrips_wrapped hlen h
  · by_contra hlen
    exact not_roundTrips_wrapped (Nat.le_of_not_lt hlen) h

/-- The text `TWFu` of the three bytes `Man` has no padding. -/
theorem not_roundTrips_man : ¬ RoundTrips (['M', 'a', 'n'].map chr) :=
  not_roundTrips_unpadded (by decide) (by decide)

end Libuo.Base64
