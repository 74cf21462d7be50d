import Libuo.Base64Url

/-!
# Coding in place

The encoders write downwards from the end of the text and the decoder reads ahead of what it
writes, so that a buffer may be source and destination. This is compared with a run from one array
to another, for arrays of any length: from `2 ^ 62` bytes on the length of the text wraps around,
and the encoders only get to the last bytes of the source.
-/

namespace Libuo.Base64InPlace
open CMemory SextetCodec Base64

/-- The length of the padded text. -/
def textRoom (len : ℕ) : ℕ := 4 * ((len + 2) / 3)

/-- One buffer with the source and room for the result. -/
structure Shared (m : Memory) (p : ℕ) (x : List UInt8) (size : ℕ) : Prop where
  source : Holds m p x
  room : Mapped m p size

/-- Two arrays apart from each other, at 64-bit addresses. -/
structure Separate (m : Memory) (dst src : ℕ) (x : List UInt8) (size : ℕ) : Prop where
  source : Holds m src x
  room : Mapped m dst size
  apart : src + x.length ≤ dst ∨ dst + size ≤ src
  addresses : src + x.length ≤ 2 ^ 64 ∧ dst + size ≤ 2 ^ 64

/-- What two runs have left between their destinations and the ends they return is the same. -/
def SameResult (r : Option (Memory × ℕ)) (p : ℕ) (r' : Option (Memory × ℕ)) (dst : ℕ) : Prop :=
  ∀ m stop n stop', r = some (m, stop) → r' = some (n, stop') →
    stop - p = stop' - dst ∧ ∀ i < stop - p, m (p + i) = n (dst + i)

/-- In place and from one array to another the results are the same. Both runs of an encoder
return, but for a source of `2 ^ 62` bytes: there the length of the text is zero, and what is left
over by full blocks is written in front of the destination. -/
structure InPlace (x : List UInt8) : Prop where
  base64 (m n : Memory) (p dst src : ℕ) : Shared m p x (textRoom x.length) →
    Separate n dst src x (textRoom x.length) →
    SameResult (encode m p p x.length) p (encode n dst src x.length) dst ∧
      (x.length ≠ 2 ^ 62 → (encode m p p x.length).isSome ∧ (encode n dst src x.length).isSome)
  base64url (m n : Memory) (p dst src : ℕ) : Shared m p x (textRoom x.length) →
    Separate n dst src x (textRoom x.length) →
    SameResult (Base64Url.encode m p p x.length) p (Base64Url.encode n dst src x.length) dst ∧
      (x.length ≠ 2 ^ 62 → (Base64Url.encode m p p x.length).isSome ∧
        (Base64Url.encode n dst src x.length).isSome)
  decode (m n : Memory) (p dst src : ℕ) : Shared m p x 0 →
    Separate n dst src x (x.length / 4 * 3 + (x.length % 4 - 1)) →
    SameResult (Base64Url.decode m p p x.length) p (Base64Url.decode n dst src x.length) dst ∧
      (Base64Url.decode m p p x.length).isSome ∧ (Base64Url.decode n dst src x.length).isSome

variable {m n : Memory} {p dst src len : ℕ} {x : List UInt8}

theorem sameResult_write (l : List UInt8) :
    SameResult (some (write m p l, p + l.length)) p (some (write n dst l, dst + l.length)) dst := by
  intro m' stop n' stop' h h'
  obtain ⟨rfl, rfl⟩ := Prod.mk.inj (Option.some.inj h)
  obtain ⟨rfl, rfl⟩ := Prod.mk.inj (Option.some.inj h')
  refine ⟨by omega, fun i hi => ?_⟩
  rw [Nat.add_sub_cancel_left] at hi
  rw [write_apply_add hi, write_apply_add hi]

/-- An encoder uses the length for the end of the text and for what is left over by full blocks,
and writes a text when the length does not wrap around. -/
structure Encoder (run : Memory → ℕ → ℕ → ℕ → Option (Memory × ℕ))
    (text : List UInt8 → List UInt8) : Prop where
  suffix {m : Memory} {dst src len k : ℕ} : k ≤ len → k % 3 = len % 3 →
    base64Len k = base64Len len → run m dst src len = run m dst (src + (len - k)) k
  eq {m : Memory} {dst src : ℕ} {x : List UInt8} : Holds m src x → x.length < 2 ^ 62 →
    Mapped m dst (base64Len x.length) → (src ≤ dst ∨ dst + base64Len x.length ≤ src) →
    run m dst src x.length = some (write m dst (text x), dst + (text x).length)
  stop_le {m m' : Memory} {dst src len stop : ℕ} : run m dst src len = some (m', stop) →
    stop ≤ dst + base64Len len

theorem encoder_base64 : Encoder encode alphabet.text where
  suffix := by
    intro m dst src len k hle hmod hlen
    have htail (a b : ℕ) : encodeTail m a b k = encodeTail m a b len := by
      unfold encodeTail
      rw [hmod]
    rw [encode, encode, hlen, htail, Nat.add_assoc, Nat.sub_add_cancel hle]
  eq hs hlen hm ho := by rw [encode_eq hs hlen hm ho, length_text hlen]
  stop_le h := (encode_stop h).le

theorem encoder_base64url : Encoder Base64Url.encode Base64Url.text where
  suffix := by
    intro m dst src len k hle hmod hlen
    have htail (a b : ℕ) : Base64Url.encodeTail m a b k = Base64Url.encodeTail m a b len := by
      unfold Base64Url.encodeTail
      rw [hmod]
    rw [Base64Url.encode, Base64Url.encode, hlen, htail, Nat.add_assoc, Nat.sub_add_cancel hle]
  eq {m dst src x} hs hlen hm ho := by
    have hle : (Base64Url.text x).length ≤ base64Len x.length := by
      rw [Base64Url.text, Alphabet.length_bareText, base64Len_eq, Nat.mod_eq_of_lt hlen]
      omega
    exact Base64Url.encode_eq hs hlen (hm.mono hle) (by omega)
  stop_le h := (Base64Url.encode_above h).1

/-- The number of bytes that are read: all of them, unless the length of the text wraps around. -/
def covered (len : ℕ) : ℕ := 3 * (base64Len len / 4) - (3 - len % 3) % 3

theorem covered_spec (hsize : len + textRoom len ≤ 2 ^ 64) (hlen : len ≠ 2 ^ 62) :
    covered len ≤ len ∧ covered len % 3 = len % 3 ∧ covered len < 2 ^ 62 ∧
      base64Len (covered len) = base64Len len ∧ base64Len len ≤ textRoom len ∧
      (covered len = len ∨ base64Len len + covered len ≤ len) := by
  rw [textRoom] at *
  obtain ⟨c, hc⟩ : ∃ c, c = covered len := ⟨_, rfl⟩
  rw [← hc]
  rw [covered, base64Len_eq] at hc
  rw [base64Len_eq, base64Len_eq]
  have hlt : c < 2 ^ 62 := by omega
  rw [Nat.mod_eq_of_lt hlt]
  omega

variable {run : Memory → ℕ → ℕ → ℕ → Option (Memory × ℕ)} {text : List UInt8 → List UInt8}

theorem Encoder.run_eq (E : Encoder run text) (hs : Holds m src x)
    (hm : Mapped m dst (textRoom x.length))
    (ho : src = dst ∨ src + x.length ≤ dst ∨ dst + textRoom x.length ≤ src)
    (hsize : x.length + textRoom x.length ≤ 2 ^ 64) (hlen : x.length ≠ 2 ^ 62) :
    run m dst src x.length = some (write m dst (text (x.drop (x.length - covered x.length))),
      dst + (text (x.drop (x.length - covered x.length))).length) := by
  obtain ⟨hle, hmod, hlt, hsame, hroom, hgap⟩ := covered_spec hsize hlen
  have hdrop : (x.drop (x.length - covered x.length)).length = covered x.length := by
    rw [List.length_drop]
    omega
  have hs' : Holds m (src + (x.length - covered x.length))
      (x.drop (x.length - covered x.length)) := by
    rw [← List.take_append_drop (x.length - covered x.length) x, holds_append,
      List.length_take, Nat.min_eq_left (Nat.sub_le _ _)] at hs
    exact hs.2
  have hrun := E.eq hs' (by omega) (hm.mono (by rw [hdrop]; omega))
    (by rw [hdrop]; omega)
  rw [hdrop] at hrun
  rw [E.suffix hle hmod hsame, hrun]

theorem Encoder.sameResult (E : Encoder run text) (hshared : Shared m p x (textRoom x.length))
    (hseparate : Separate n dst src x (textRoom x.length)) :
    SameResult (run m p p x.length) p (run n dst src x.length) dst ∧
      (x.length ≠ 2 ^ 62 → (run m p p x.length).isSome ∧ (run n dst src x.length).isSome) := by
  have hapart := hseparate.apart
  have haddresses := hseparate.addresses
  by_cases hlen : x.length = 2 ^ 62
  · -- there is no text
    have hzero : base64Len x.length = 0 := by
      rw [hlen, base64Len_eq]
      rfl
    refine ⟨fun m' stop n' stop' h h' => ?_, fun hne => absurd hlen hne⟩
    have hstop := E.stop_le h
    have hstop' := E.stop_le h'
    exact ⟨by omega, fun i hi => by omega⟩
  · have hsize : x.length + textRoom x.length ≤ 2 ^ 64 := by omega
    rw [E.run_eq hshared.source hshared.room (.inl rfl) hsize hlen,
      E.run_eq hseparate.source hseparate.room (.inr hapart) hsize hlen]
    exact ⟨sameResult_write _, fun _ => ⟨rfl, rfl⟩⟩

/-- In place, the encoders and the decoder for URLs leave what they leave in another array. -/
theorem inPlace (x : List UInt8) : InPlace x where
  base64 _ _ _ _ _ := encoder_base64.sameResult
  base64url _ _ _ _ _ := encoder_base64url.sameResult
  decode m n p dst src hshared hseparate := by
    have hbytes := Base64Url.alphabet.length_bytesOf x
    have hapart := hseparate.apart
    have hm : Mapped m p (Base64Url.alphabet.bytesOf x).length := fun i hi => by
      rw [hshared.source.get (i := i) (by omega)]
      rfl
    have hn : Mapped n dst (Base64Url.alphabet.bytesOf x).length := hbytes ▸ hseparate.room
    have hdst : dst ≤ src ∨ src + x.length ≤ dst := by omega
    rw [Base64Url.decode_any hshared.source hm (.inl (Nat.le_refl _)),
      Base64Url.decode_any hseparate.source hn hdst]
    exact ⟨sameResult_write _, rfl, rfl⟩

end Libuo.Base64InPlace
