import Libuo.Base64RoundTrip

/-!
# Base64 for URLs

The alphabet for URLs, without padding: the encoder starts below the end that a padded
text would have, and the decoder is told by the length what is left over by full blocks.
-/

namespace Libuo.Base64Url
open CMemory CStrings SextetCodec Base64

def btoaUrlTable : List UInt8 := [
  'A', 'B', 'C', 'D', 'E', 'F', 'G', 'H', 'I', 'J', 'K', 'L', 'M', 'N', 'O', 'P',
  'Q', 'R', 'S', 'T', 'U', 'V', 'W', 'X', 'Y', 'Z', 'a', 'b', 'c', 'd', 'e', 'f',
  'g', 'h', 'i', 'j', 'k', 'l', 'm', 'n', 'o', 'p', 'q', 'r', 's', 't', 'u', 'v',
  'w', 'x', 'y', 'z', '0', '1', '2', '3', '4', '5', '6', '7', '8', '9', '-', '_'].map chr

/-- The rows `0x20` to `0x70` of the decoding table; all other entries are `0xFF`. -/
def atobUrlRows : List UInt8 := [
  0xFF,0xFF,0xFF,0xFF,0xFF,0xFF,0xFF,0xFF,0xFF,0xFF,0xFF,0xFF,0xFF,0x3E,0xFF,0xFF,
  0x34,0x35,0x36,0x37,0x38,0x39,0x3A,0x3B,0x3C,0x3D,0xFF,0xFF,0xFF,0xFF,0xFF,0xFF,
  0xFF,0x00,0x01,0x02,0x03,0x04,0x05,0x06,0x07,0x08,0x09,0x0A,0x0B,0x0C,0x0D,0x0E,
  0x0F,0x10,0x11,0x12,0x13,0x14,0x15,0x16,0x17,0x18,0x19,0xFF,0xFF,0xFF,0xFF,0x3F,
  0xFF,0x1A,0x1B,0x1C,0x1D,0x1E,0x1F,0x20,0x21,0x22,0x23,0x24,0x25,0x26,0x27,0x28,
  0x29,0x2A,0x2B,0x2C,0x2D,0x2E,0x2F,0x30,0x31,0x32,0x33,0xFF,0xFF,0xFF,0xFF,0xFF]

def atobUrlTable : List UInt8 :=
  List.replicate 0x20 0xFF ++ atobUrlRows ++ List.replicate 0x80 0xFF

def btoaUrl (s : UInt8) : UInt8 := btoaUrlTable.getD s.toNat 0
def atobUrl (c : UInt8) : UInt8 := atobUrlTable.getD c.toNat 0

/-- `switch (src_len % 3)`: the last one or two bytes. After the memory comes the end of the
text, and then the two pointers. -/
def encodeTail (m : Memory) (a b len : ℕ) : Option (Memory × ℕ × ℕ × ℕ) :=
  match len % 3, a, b with
  | 1, a + 4, b + 1 => do
    let b0 ← m b
    let m ← store m (a + 1) (btoaUrl ((b0 &&& 0x03) <<< 4))
    let m ← store m a (btoaUrl (b0 >>> 2))
    some (m, a + 2, a, b)
  | 2, a + 4, b + 2 => do
    let b1 ← m (b + 1)
    let b0 ← m b
    let m ← store m (a + 2) (btoaUrl ((b1 &&& 0x0F) <<< 2))
    let m ← store m (a + 1) (btoaUrl ((b0 &&& 0x03) <<< 4 ||| b1 >>> 4))
    let m ← store m a (btoaUrl (b0 >>> 2))
    some (m, a + 3, a, b)
  | 0, a, b => some (m, a, a, b)
  | _, _, _ => none

/-- `uo_base64url_encode`: the memory afterwards and the end of the text. -/
def encode (m : Memory) (dst src len : ℕ) : Option (Memory × ℕ) := do
  let (m, stop, a, b) ← encodeTail m (dst + base64Len len) (src + len) len
  let m ← encodeLoop btoaUrl dst m a b
  some (m, stop)

/-- `while (a + 4 <= end)`: four characters from `a` become three bytes from `b`. -/
def decodeLoop (stop : ℕ) (m : Memory) (a b : ℕ) : Option (Memory × ℕ × ℕ) :=
  if a + 4 ≤ stop then do
    let m ← decodeQuad atobUrl m a b
    decodeLoop stop m (a + 4) (b + 3)
  else some (m, a, b)
termination_by stop - a

/-- `switch (end - a)`: the last two or three characters. -/
def decodeTail (m : Memory) (a b : ℕ) : ℕ → Option (Memory × ℕ)
  | 3 => do
    let a0 := atobUrl (← m a)
    let a1 := atobUrl (← m (a + 1))
    let a2 := atobUrl (← m (a + 2))
    let m ← store m b (a0 <<< 2 ||| a1 >>> 4)
    let m ← store m (b + 1) ((a1 &&& 0x0F) <<< 4 ||| a2 >>> 2)
    some (m, b + 2)
  | 2 => do
    let a0 := atobUrl (← m a)
    let a1 := atobUrl (← m (a + 1))
    let m ← store m b (a0 <<< 2 ||| a1 >>> 4)
    some (m, b + 1)
  | _ => some (m, b)

/-- `uo_base64url_decode`: the memory afterwards and the end of the bytes. -/
def decode (m : Memory) (dst src len : ℕ) : Option (Memory × ℕ) := do
  let (m, a, b) ← decodeLoop (src + len) m src dst
  decodeTail m a b (src + len - a)

/-- The two tables are inverse on sextets. -/
def alphabet : Alphabet where
  btoa := btoaUrl
  atob := atobUrl
  pad := chr '='
  atob_btoa := forall_sextet (by decide +kernel)
  btoa_ne_pad := forall_sextet (by decide +kernel)

/-- The characters that `uo_base64url_encode` writes. -/
def text (x : List UInt8) : List UInt8 := alphabet.bareText x

variable {m : Memory} {dst src a b stop len : ℕ} {o x r : List UInt8}

private theorem store_two {α : Type} (h : Mapped m a 2) (c0 c1 : UInt8)
    (k : Memory → Option α) :
    ((store m (a + 1) c1).bind fun m => (store m a c0).bind k) = k (write m a [c0, c1]) := by
  have h1 := store_write_below (m := m) (p := a + 1) (l := []) (b := c1) (h 1 (by omega))
  rw [write_nil] at h1
  rw [h1, Option.bind_some, store_write_below (by simpa using h 0 (by omega)), Option.bind_some]

private theorem store_three {α : Type} (h : Mapped m a 3) (c0 c1 c2 : UInt8)
    (k : Memory → Option α) :
    ((store m (a + 2) c2).bind fun m => (store m (a + 1) c1).bind fun m =>
      (store m a c0).bind k) = k (write m a [c0, c1, c2]) := by
  have h2 := store_write_below (m := m) (p := a + 2) (l := []) (b := c2) (h 2 (by omega))
  rw [write_nil] at h2
  rw [h2, Option.bind_some, store_write_below (h 1 (by omega)), Option.bind_some,
    store_write_below (by simpa using h 0 (by omega)), Option.bind_some]

theorem encodeTail_eq (len : ℕ) (hr : r.length = len % 3) (hs : Holds m b r)
    (hm : Mapped m a (alphabet.bareTail r).length) :
    encodeTail m (a + 4 * ((r.length + 2) / 3)) (b + r.length) len =
      some (write m a (alphabet.bareTail r), a + (alphabet.bareTail r).length, a, b) := by
  have h3 := Nat.mod_lt len (show 3 > 0 by omega)
  match r, hr with
  | [], hr => simp [encodeTail, ← hr, Alphabet.bareTail]
  | [b0], hr =>
    have h0 : m b = some b0 := hs.1
    have hw := store_two hm (btoaUrl (sextet0 b0)) (btoaUrl (sextet1 b0 0))
      (fun m => some (m, a + 2, a, b))
    simpa [encodeTail, ← hr, Alphabet.bareTail, h0, sextet0, sextet1, alphabet] using hw
  | [b0, b1], hr =>
    have h0 : m b = some b0 := hs.1
    have h1 : m (b + 1) = some b1 := hs.2.1
    have hw := store_three hm (btoaUrl (sextet0 b0)) (btoaUrl (sextet1 b0 b1))
      (btoaUrl (sextet2 b1 0)) (fun m => some (m, a + 3, a, b))
    simpa [encodeTail, ← hr, Alphabet.bareTail, h0, h1, sextet0, sextet1, sextet2, alphabet]
      using hw
  | _ :: _ :: _ :: _, hr =>
    simp only [List.length_cons] at hr
    omega

/-- The encoder writes the text without padding, also in place, and nothing else. -/
theorem encode_eq (hx : Holds m src x) (hlen : x.length < 2 ^ 62)
    (hm : Mapped m dst (text x).length) (ho : src ≤ dst ∨ dst + (text x).length ≤ src) :
    encode m dst src x.length = some (write m dst (text x), dst + (text x).length) := by
  obtain ⟨ts, r, rfl, hr⟩ := exists_blocks x
  have h3 : r.length < 3 := hr ▸ Nat.mod_lt _ (by omega)
  have hpadded : base64Len (bytes ts ++ r).length = 4 * ts.length + 4 * ((r.length + 2) / 3) := by
    rw [base64Len_eq, Nat.mod_eq_of_lt hlen, List.length_append, length_bytes]
    omega
  rw [encode, hpadded]
  simp only [text, alphabet.bareText_blocks ts h3, List.length_append, Alphabet.length_quads,
    holds_append, length_bytes] at hx hm ho hr ⊢
  have htail := encodeTail_eq (m := m) (a := dst + 4 * ts.length)
    (3 * ts.length + r.length) hr hx.2 (fun i hi => by rw [Nat.add_assoc]; exact hm _ (by omega))
  have hloop : encodeLoop btoaUrl dst _ _ _ = _ :=
    encodeLoop_eq alphabet (o := alphabet.bareTail r) ts hx.1 (hm.mono (by simp))
      (by simpa [Nat.add_assoc] using ho)
  simp only [← Nat.add_assoc] at htail ⊢
  simp [htail, hloop]

theorem decodeTail_any (hc : Holds m a x)
    (hm : Mapped m (dst + o.length) (alphabet.bytesOf x).length)
    (ho : dst + o.length ≤ a ∨ a + x.length ≤ dst) (hx : x.length < 4) :
    decodeTail (write m dst o) a (dst + o.length) x.length =
      some (write m dst (o ++ alphabet.bytesOf x),
        dst + o.length + (alphabet.bytesOf x).length) := by
  have hkeep := hc.apart ho
  rcases x with _ | ⟨c0, _ | ⟨c1, _ | ⟨c2, _ | ⟨c3, x⟩⟩⟩⟩
  · simp [decodeTail]
  · simp [decodeTail, Alphabet.bytesOf]
  · obtain ⟨k0, k1, -⟩ := hkeep
    have hstore := store_write_above (m := m) (p := dst) (l := o)
      (b := byte0 (alphabet.atob c0) (alphabet.atob c1))
      (by simpa using hm 0 (by simp [Alphabet.bytesOf]))
    simp only [decodeTail, List.length_cons, List.length_nil, Option.bind_eq_bind, k0, k1,
      Option.bind_some]
    exact (congrArg (Option.bind · _) hstore).trans rfl
  · obtain ⟨k0, k1, k2, -⟩ := hkeep
    obtain ⟨b0, hb0⟩ : ∃ b0, b0 = byte0 (alphabet.atob c0) (alphabet.atob c1) := ⟨_, rfl⟩
    have hfirst := store_write_above (m := m) (p := dst) (l := o) (b := b0)
      (by simpa using hm 0 (by simp [Alphabet.bytesOf]))
    have hsecond := store_write_above (m := m) (p := dst) (l := o ++ [b0])
      (b := byte1 (alphabet.atob c1) (alphabet.atob c2))
      (by simpa [Nat.add_assoc] using hm 1 (by simp [Alphabet.bytesOf]))
    simp only [List.length_append, List.length_singleton, ← Nat.add_assoc] at hsecond
    simp only [decodeTail, List.length_cons, List.length_nil, Option.bind_eq_bind, k0, k1, k2,
      Option.bind_some]
    rw [hb0] at hfirst hsecond
    refine (congrArg (Option.bind · _) hfirst).trans ?_
    refine (congrArg (Option.bind · _) hsecond).trans ?_
    simp [Alphabet.bytesOf, Nat.add_assoc]
  · simp only [List.length_cons] at hx
    omega

/-- The loop and the tail from a place in the characters on: what has been decoded before stands
below the destination pointer. -/
theorem decodeFrom_eq (hc : Holds m a x)
    (hm : Mapped m (dst + o.length) (alphabet.bytesOf x).length)
    (ho : dst + o.length ≤ a ∨ a + x.length ≤ dst) :
    ((decodeLoop (a + x.length) (write m dst o) a (dst + o.length)).bind fun r =>
      decodeTail r.1 r.2.1 r.2.2 (a + x.length - r.2.1)) =
      some (write m dst (o ++ alphabet.bytesOf x),
        dst + o.length + (alphabet.bytesOf x).length) := by
  induction x using Alphabet.bytesOf.induct generalizing a o with
  | case1 c0 c1 c2 c3 x ih =>
    simp only [List.length_cons] at ho
    have hquad : decodeQuad atobUrl (write m dst o) a (dst + o.length) = _ :=
      decodeQuad_any alphabet ⟨hc.1, hc.2.1, hc.2.2.1, hc.2.2.2.1, trivial⟩
        (hm.mono (by simp [Alphabet.bytesOf])) (by omega)
    have hlen : (o ++ alphabet.bytesOf [c0, c1, c2, c3]).length = o.length + 3 := by
      rw [List.length_append]
      rfl
    have hrest := ih (a := a + 4) (o := o ++ alphabet.bytesOf [c0, c1, c2, c3]) hc.2.2.2.2
      (fun i hi => by
        rw [hlen, Nat.add_assoc, Nat.add_assoc, ← Nat.add_assoc dst]
        exact hm _ (by simp only [Alphabet.bytesOf, List.length_cons]; omega)) (by omega)
    rw [hlen] at hrest
    rw [decodeLoop, if_pos (by simp only [List.length_cons]; omega), hquad, Option.bind_eq_bind,
      Option.bind_some, show a + (c0 :: c1 :: c2 :: c3 :: x).length = a + 4 + x.length by
        simp only [List.length_cons]; omega, Nat.add_assoc dst, hrest]
    simp only [Alphabet.bytesOf, List.append_assoc, List.cons_append, List.nil_append,
      List.length_cons]
    congr 2
    omega
  | case2 c0 c1 c2 | case3 c0 c1 =>
    rw [decodeLoop, if_neg (by simp), Option.bind_some, Nat.add_sub_cancel_left]
    exact decodeTail_any hc hm ho (by simp)
  | case4 x h4 h3 h2 =>
    have hx : x.length < 4 := by
      have hlength := alphabet.length_bytesOf x
      rw [Alphabet.bytesOf.eq_4 alphabet x h4 h3 h2, List.length_nil] at hlength
      omega
    rw [decodeLoop, if_neg (by omega), Option.bind_some, Nat.add_sub_cancel_left]
    exact decodeTail_any hc hm ho hx

/-- Any characters are decoded, also in place, and nothing else is written. -/
theorem decode_any (hc : Holds m src x) (hm : Mapped m dst (alphabet.bytesOf x).length)
    (ho : dst ≤ src ∨ src + x.length ≤ dst) :
    decode m dst src x.length =
      some (write m dst (alphabet.bytesOf x), dst + (alphabet.bytesOf x).length) := by
  have hfrom := decodeFrom_eq (o := []) hc hm ho
  rw [write_nil] at hfrom
  exact hfrom

/-- A text is decoded to the bytes it was made from, also in place. -/
theorem decode_eq (hc : Holds m src (text x)) (hm : Mapped m dst x.length)
    (ho : dst ≤ src ∨ src + (text x).length ≤ dst) :
    decode m dst src (text x).length = some (write m dst x, dst + x.length) := by
  have hbytes : alphabet.bytesOf (text x) = x := alphabet.bytesOf_bareText x
  have hdecode := decode_any hc (by rwa [hbytes]) ho
  rwa [hbytes] at hdecode

theorem exists_decodeQuad (ha : Mapped m a 4) (hb : Mapped m b 3) :
    ∃ m', decodeQuad atobUrl m a b = some m' ∧ Keeps m m' := by
  obtain ⟨c0, h0⟩ := Option.isSome_iff_exists.mp (ha 0 (by omega))
  obtain ⟨c1, h1⟩ := Option.isSome_iff_exists.mp (ha 1 (by omega))
  obtain ⟨c2, h2⟩ := Option.isSome_iff_exists.mp (ha 2 (by omega))
  obtain ⟨c3, h3⟩ := Option.isSome_iff_exists.mp (ha 3 (by omega))
  rw [Nat.add_zero] at h0
  obtain ⟨m₁, hs₁, k₁⟩ := exists_store (hb 0 (by omega)) (byte0 (atobUrl c0) (atobUrl c1))
  obtain ⟨m₂, hs₂, k₂⟩ := exists_store (k₁ _ (hb 1 (by omega))) (byte1 (atobUrl c1) (atobUrl c2))
  obtain ⟨m₃, hs₃, k₃⟩ :=
    exists_store ((k₁.trans k₂) _ (hb 2 (by omega))) (byte2 (atobUrl c2) (atobUrl c3))
  refine ⟨m₃, ?_, (k₁.trans k₂).trans k₃⟩
  simp only [decodeQuad, Option.bind_eq_bind, h0, h1, h2, h3, Option.bind_some]
  change (store m (b + 0) (byte0 _ _)).bind
    (fun m => (store m _ (byte1 _ _)).bind (fun m => store m _ (byte2 _ _))) = _
  rw [hs₁, Option.bind_some, hs₂, Option.bind_some, hs₃]

theorem exists_decodeLoop (k : ℕ) (hr : len < 4) (ha : Mapped m a (4 * k + len))
    (hb : Mapped m b (3 * k)) :
    ∃ m', decodeLoop (a + (4 * k + len)) m a b = some (m', a + 4 * k, b + 3 * k) ∧
      Keeps m m' := by
  induction k generalizing m a b with
  | zero =>
    refine ⟨m, ?_, fun _ h => h⟩
    rw [decodeLoop, if_neg (by omega)]
    rfl
  | succ k ih =>
    obtain ⟨m₁, hquad, k₁⟩ := exists_decodeQuad (ha.mono (by omega)) (hb.mono (by omega))
    have ha' : Mapped m₁ (a + 4) (4 * k + len) := (Mapped.behind (ha.mono (by omega))).keep k₁
    have hb' : Mapped m₁ (b + 3) (3 * k) := (Mapped.behind (hb.mono (by omega))).keep k₁
    obtain ⟨m', hloop, k'⟩ := ih ha' hb'
    refine ⟨m', ?_, k₁.trans k'⟩
    rw [decodeLoop, if_pos (by omega), hquad, Option.bind_eq_bind, Option.bind_some,
      show a + (4 * (k + 1) + len) = a + 4 + (4 * k + len) by omega, hloop,
      show a + 4 + 4 * k = a + 4 * (k + 1) by omega, show b + 3 + 3 * k = b + 3 * (k + 1) by omega]

theorem exists_decodeTail (hr : len < 4) (ha : Mapped m a len) (hb : Mapped m b (len - 1)) :
    ∃ m', decodeTail m a b len = some (m', b + (len - 1)) ∧ Keeps m m' := by
  match len, hr with
  | 0, _ | 1, _ => exact ⟨m, rfl, fun _ h => h⟩
  | 2, _ =>
    obtain ⟨c0, h0⟩ := Option.isSome_iff_exists.mp (ha 0 (by omega))
    obtain ⟨c1, h1⟩ := Option.isSome_iff_exists.mp (ha 1 (by omega))
    obtain ⟨m₁, hs₁, k₁⟩ := exists_store (hb 0 (by omega)) (byte0 (atobUrl c0) (atobUrl c1))
    rw [Nat.add_zero] at h0
    refine ⟨m₁, ?_, k₁⟩
    simp only [decodeTail, Option.bind_eq_bind, h0, h1, Option.bind_some]
    change (store m (b + 0) (byte0 _ _)).bind _ = _
    rw [hs₁]
    rfl
  | 3, _ =>
    obtain ⟨c0, h0⟩ := Option.isSome_iff_exists.mp (ha 0 (by omega))
    obtain ⟨c1, h1⟩ := Option.isSome_iff_exists.mp (ha 1 (by omega))
    obtain ⟨c2, h2⟩ := Option.isSome_iff_exists.mp (ha 2 (by omega))
    obtain ⟨m₁, hs₁, k₁⟩ := exists_store (hb 0 (by omega)) (byte0 (atobUrl c0) (atobUrl c1))
    obtain ⟨m₂, hs₂, k₂⟩ :=
      exists_store (k₁ _ (hb 1 (by omega))) (byte1 (atobUrl c1) (atobUrl c2))
    rw [Nat.add_zero] at h0
    refine ⟨m₂, ?_, k₁.trans k₂⟩
    simp only [decodeTail, Option.bind_eq_bind, h0, h1, h2, Option.bind_some]
    change (store m (b + 0) (byte0 _ _)).bind
      (fun m => (store m _ (byte1 _ _)).bind fun m => _) = _
    rw [hs₁, Option.bind_some, hs₂]
    rfl

/-- The decoder reads the characters it is given and writes their bytes, wherever they lie. -/
theorem exists_decode (ha : Mapped m src len) (hb : Mapped m dst (len / 4 * 3 + (len % 4 - 1))) :
    ∃ m', decode m dst src len = some (m', dst + (len / 4 * 3 + (len % 4 - 1))) ∧ Keeps m m' := by
  have hlt : len % 4 < 4 := Nat.mod_lt _ (by omega)
  have hlen : 4 * (len / 4) + len % 4 = len := Nat.div_add_mod len 4
  obtain ⟨m₁, hloop, k₁⟩ := exists_decodeLoop (len / 4) hlt (by rwa [hlen])
    (hb.mono (by omega))
  rw [hlen] at hloop
  have ha' : Mapped m₁ (src + 4 * (len / 4)) (len % 4) :=
    (Mapped.behind (ha.mono (by omega))).keep k₁
  have hb' : Mapped m₁ (dst + 3 * (len / 4)) (len % 4 - 1) :=
    (Mapped.behind (hb.mono (by omega))).keep k₁
  obtain ⟨m', htail, k'⟩ := exists_decodeTail hlt ha' hb'
  refine ⟨m', ?_, k₁.trans k'⟩
  rw [decode, hloop]
  change decodeTail m₁ (src + 4 * (len / 4)) (dst + 3 * (len / 4))
    (src + len - (src + 4 * (len / 4))) = _
  rw [show src + len - (src + 4 * (len / 4)) = len % 4 by omega, htail, Nat.add_assoc,
    Nat.mul_comm 3]

theorem encodeTail_above {m' : Memory} {a' b' p q : ℕ}
    (h : encodeTail m p b len = some (m', stop, a', b')) (hq : p ≤ q) :
    stop ≤ p ∧ a' ≤ p ∧ m' q = m q := by
  unfold encodeTail at h
  split at h
  · simp only [Option.bind_eq_bind, Option.bind_eq_some_iff, Option.some.injEq,
      Prod.mk.injEq] at h
    obtain ⟨b0, -, m₁, h₁, m₂, h₂, rfl, rfl, rfl, rfl⟩ := h
    exact ⟨by omega, by omega, by rw [store_above h₂ (by omega), store_above h₁ (by omega)]⟩
  · simp only [Option.bind_eq_bind, Option.bind_eq_some_iff, Option.some.injEq,
      Prod.mk.injEq] at h
    obtain ⟨b1, -, b0, -, m₁, h₁, m₂, h₂, m₃, h₃, rfl, rfl, rfl, rfl⟩ := h
    exact ⟨by omega, by omega, by
      rw [store_above h₃ (by omega), store_above h₂ (by omega), store_above h₁ (by omega)]⟩
  · simp only [Option.some.injEq, Prod.mk.injEq] at h
    obtain ⟨rfl, rfl, rfl, rfl⟩ := h
    exact ⟨Nat.le_refl _, Nat.le_refl _, rfl⟩
  · simp at h

theorem encodeLoop_above {m' : Memory} {q : ℕ} (h : encodeLoop btoaUrl dst m a b = some m')
    (hq : a ≤ q) : m' q = m q := by
  fun_induction encodeLoop btoaUrl dst m a b with
  | case1 m a b hgt ih =>
    simp only [Option.bind_eq_bind, Option.bind_eq_some_iff] at h
    obtain ⟨b2, -, b1, -, b0, -, m₁, h₁, m₂, h₂, m₃, h₃, m₄, h₄, h⟩ := h
    rw [ih m₄ h (by omega), store_above h₄ (by omega), store_above h₃ (by omega),
      store_above h₂ (by omega), store_above h₁ (by omega)]
  | case2 =>
    obtain rfl := Option.some.inj h
    rfl
  | case3 => simp at h
  | case4 =>
    obtain rfl := Option.some.inj h
    rfl

theorem encode_above {m' : Memory} (h : encode m dst src len = some (m', stop)) :
    stop ≤ dst + base64Len len ∧ ∀ q, dst + base64Len len ≤ q → m' q = m q := by
  simp only [encode, Option.bind_eq_bind, Option.bind_eq_some_iff, Option.some.injEq,
    Prod.mk.injEq] at h
  obtain ⟨⟨m₁, stop', a', b'⟩, htail, m₂, hloop, rfl, rfl⟩ := h
  refine ⟨(encodeTail_above htail (Nat.le_refl _)).1, fun q hq => ?_⟩
  obtain ⟨-, ha, hkeep⟩ := encodeTail_above htail hq
  exact (encodeLoop_above hloop (ha.trans hq)).trans hkeep

theorem decodeLoop_le {m' : Memory} {a' b' : ℕ}
    (h : decodeLoop stop m a b = some (m', a', b')) : b ≤ b' := by
  fun_induction decodeLoop stop m a b with
  | case1 m a b hle ih =>
    rw [Option.bind_eq_bind, Option.bind_eq_some_iff] at h
    obtain ⟨m₁, -, h⟩ := h
    exact (Nat.le_add_right b 3).trans (ih m₁ h)
  | case2 m a b hle =>
    obtain ⟨rfl, rfl, rfl⟩ : m = m' ∧ a = a' ∧ b = b' := by simpa using h
    exact Nat.le_refl _

theorem decodeLoop_above {m' : Memory} {a' b' : ℕ} (ha : a ≤ stop)
    (h : decodeLoop stop m a b = some (m', a', b')) :
    a' ≤ stop ∧ b' + a ≤ b + a' ∧ ∀ q, b' ≤ q → m' q = m q := by
  fun_induction decodeLoop stop m a b with
  | case1 m a b hle ih =>
    rw [Option.bind_eq_bind, Option.bind_eq_some_iff] at h
    obtain ⟨m₁, hquad, h⟩ := h
    obtain ⟨ha', hab, hkeep⟩ := ih m₁ hle h
    have hb := decodeLoop_le h
    refine ⟨ha', by omega, fun q hq => ?_⟩
    rw [hkeep q hq, decodeQuad_frame hquad (.inr (by omega))]
  | case2 m a b hle =>
    obtain ⟨rfl, rfl, rfl⟩ : m = m' ∧ a = a' ∧ b = b' := by simpa using h
    exact ⟨ha, Nat.le_refl _, fun q _ => rfl⟩

theorem decodeTail_above {m' : Memory} {p n : ℕ} (h : decodeTail m a b n = some (m', p)) :
    p ≤ b + 2 ∧ ∀ q, b + 2 ≤ q → m' q = m q := by
  unfold decodeTail at h
  split at h
  · simp only [Option.bind_eq_bind, Option.bind_eq_some_iff, Option.some.injEq,
      Prod.mk.injEq] at h
    obtain ⟨a0, -, a1, -, a2, -, m₁, h₁, m₂, h₂, rfl, rfl⟩ := h
    exact ⟨Nat.le_refl _, fun q hq => by
      rw [store_above h₂ (by omega), store_above h₁ (by omega)]⟩
  · simp only [Option.bind_eq_bind, Option.bind_eq_some_iff, Option.some.injEq,
      Prod.mk.injEq] at h
    obtain ⟨a0, -, a1, -, m₁, h₁, rfl, rfl⟩ := h
    exact ⟨by omega, fun q hq => store_above h₁ (by omega)⟩
  · obtain ⟨rfl, rfl⟩ := Prod.mk.inj (Option.some.inj h)
    exact ⟨by omega, fun q _ => rfl⟩

/-- The decoder writes fewer bytes than it reads, but for the last two. -/
theorem decode_above {m' : Memory} {p : ℕ} (h : decode m dst src len = some (m', p)) :
    p ≤ dst + len + 2 ∧ ∀ q, dst + len + 2 ≤ q → m' q = m q := by
  simp only [decode, Option.bind_eq_bind, Option.bind_eq_some_iff] at h
  obtain ⟨⟨m₁, a', b'⟩, hloop, htail⟩ := h
  obtain ⟨ha, hab, hkeep⟩ := decodeLoop_above (Nat.le_add_right _ _) hloop
  obtain ⟨hp, hkeep'⟩ := decodeTail_above htail
  simp only at hp hkeep'
  exact ⟨by omega, fun q hq => (hkeep' q (by omega)).trans (hkeep q (by omega))⟩

/-- Wherever `x` lies, encoding it succeeds, and decoding exactly the characters written, from any
memory that holds them, yields `x`. Only the bytes of `x` are stored, and what lies around the
characters, which need not even be mapped, is not read. -/
def RoundTrips (x : List UInt8) : Prop :=
  ∀ (m : Memory) (dst src : ℕ), Holds m src x → Mapped m dst (text x).length →
    (src ≤ dst ∨ dst + (text x).length ≤ src) →
    ∃ m' stop, encode m dst src x.length = some (m', stop) ∧
      ∀ (n : Memory) (d s : ℕ), (∀ i < stop - dst, n (s + i) = m' (dst + i)) →
        Mapped n d x.length → (d ≤ s ∨ s + (stop - dst) ≤ d) →
        decode n d s (stop - dst) = some (write n d x, d + x.length)

theorem roundTrips (hlen : x.length < 2 ^ 62) : RoundTrips x := by
  intro m dst src hs hm ho
  refine ⟨_, _, encode_eq hs hlen hm ho, fun n d s hc hd ho' => ?_⟩
  rw [Nat.add_sub_cancel_left] at hc ho' ⊢
  refine decode_eq (holds_of_get fun i hi => ?_) hd ho'
  rw [hc i hi, write_apply_add hi]

/-- One byte in the last block. -/
theorem roundTrips_single : RoundTrips [chr 'M', chr 'a', chr 'n', 0xFF] := roundTrips (by decide)

example : text [chr 'M', chr 'a', chr 'n', 0xFF] = ['T', 'W', 'F', 'u', '_', 'w'].map chr := by
  decide

end Libuo.Base64Url
