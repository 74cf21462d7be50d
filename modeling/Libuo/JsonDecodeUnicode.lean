import Libuo.JsonDecode
import Mathlib.Order.Nat

/-!
# Decoding characters

The literals of strings of Unicode characters, and what the decoder makes of them. Each `\u` escape
is decoded on its own: of a pair of surrogates it makes three bytes for each of the two, where the
encoding of the character has four bytes.
-/

namespace Libuo.JsonDecodeUnicode
open CStrings JsonDecode
open Json hiding putc utf8Append decodeLoop decodeUtf8

/-- Four hexadecimal digits. -/
structure Hex where
  (d₃ d₂ d₁ d₀ : { c : UInt8 // isxdigit c = true })

def Hex.digits (x : Hex) : List UInt8 := [x.d₃.1, x.d₂.1, x.d₁.1, x.d₀.1]

def Hex.value (x : Hex) : ℕ := x.digits.foldl (fun n d => n * 16 + hexValue d) 0

/-- The characters with a short escape. -/
def shortEscapes : List (Char × Char) :=
  [('"', '"'), ('\\', '\\'), ('/', '/'), ('b', '\x08'), ('f', '\x0C'), ('n', '\n'), ('r', '\r'),
    ('t', '\t')]

/-- One character of a literal, as it is written. -/
inductive Piece where
  | raw (c : Char) (h : 0x20 ≤ c.toNat ∧ c ≠ '"' ∧ c ≠ '\\')
  | short (e c : Char) (h : (e, c) ∈ shortEscapes)
  | unicode (x : Hex) (h : x.value < 0xD800 ∨ 0xE000 ≤ x.value)
  | surrogates (high low : Hex) (hhigh : 0xD800 ≤ high.value ∧ high.value < 0xDC00)
      (hlow : 0xDC00 ≤ low.value ∧ low.value < 0xE000)

def Piece.isPair : Piece → Bool
  | .surrogates .. => true
  | _ => false

def escaped (x : Hex) : List UInt8 := chr '\\' :: chr 'u' :: x.digits

/-- The bytes of a piece of a literal. -/
def Piece.text : Piece → List UInt8
  | .raw c _ => String.utf8EncodeChar c
  | .short e _ _ => [chr '\\', chr e]
  | .unicode x _ => escaped x
  | .surrogates high low _ _ => escaped high ++ escaped low

/-- The character that it stands for. -/
def Piece.char : Piece → Char
  | .raw c _ => c
  | .short _ c _ => c
  | .unicode x _ => Char.ofNat x.value
  | .surrogates high low _ _ =>
    Char.ofNat (0x10000 + (high.value - 0xD800) * 0x400 + (low.value - 0xDC00))

/-- The literal of a string. -/
def literal (ps : List Piece) : List UInt8 := quoted (ps.flatMap Piece.text)

/-- The encoding of the string. -/
def encoding (ps : List Piece) : List UInt8 := (ps.map Piece.char).flatMap String.utf8EncodeChar

variable {s t u r bs bs' : List UInt8} {e n v : ℕ} {c : UInt8}

theorem toNat_ofNat (h : v.isValidChar) : (Char.ofNat v).val.toNat = v := by
  rw [Char.ofNat, dif_pos h]
  rfl

theorem or_eq_add {a b i : ℕ} (hb : b < 2 ^ i) : 2 ^ i * a ||| b = b + 2 ^ i * a :=
  (Nat.two_pow_add_eq_or_of_lt hb a).symm.trans (Nat.add_comm _ _)

theorem tail_eq (x : ℕ) : 0x80 ||| x &&& 0x3F = x % 0x40 + 0x80 := by
  have hx : x % 2 ^ 6 < 2 ^ 6 := Nat.mod_lt _ (by decide)
  rw [show (0x3F : ℕ) = 2 ^ 6 - 1 from rfl, Nat.and_two_pow_sub_one_eq_mod]
  exact or_eq_add (a := 2) hx

/-- For a character, `uo_utf8_append` stores its encoding. -/
theorem utf8Bytes_eq (h : v.isValidChar) :
    utf8Bytes v = some (String.utf8EncodeChar (Char.ofNat v)) := by
  have hlt : v < 0x110000 := by rcases h with h | h <;> omega
  have hmask : v &&& 0x7F = v % 0x80 := Nat.and_two_pow_sub_one_eq_mod v 7
  have hC0 (x : ℕ) (hx : x < 2 ^ 6) : 0xC0 ||| x = x + 0xC0 := or_eq_add (a := 3) hx
  have hE0 (x : ℕ) (hx : x < 2 ^ 5) : 0xE0 ||| x = x + 0xE0 := or_eq_add (a := 7) hx
  have hF0 (x : ℕ) (hx : x < 2 ^ 4) : 0xF0 ||| x = x + 0xF0 := or_eq_add (a := 15) hx
  rw [utf8Bytes, String.utf8EncodeChar]
  simp only [toNat_ofNat h, tail_eq, hmask, Nat.shiftRight_eq_div_pow]
  by_cases h₁ : v < 0x80
  · rw [if_pos h₁, if_pos (show v ≤ 0x7f by omega), Nat.mod_eq_of_lt h₁]
  rw [if_neg h₁, if_neg (show ¬ v ≤ 0x7f by omega)]
  by_cases h₂ : v < 0x800
  · rw [if_pos h₂, if_pos (show v ≤ 0x7ff by omega), hC0 _ (by omega),
      Nat.mod_eq_of_lt (show v / 64 < 0x20 by omega)]
  rw [if_neg h₂, if_neg (show ¬ v ≤ 0x7ff by omega)]
  by_cases h₃ : v < 0x10000
  · rw [if_pos h₃, if_pos (show v ≤ 0xffff by omega), hE0 _ (by omega),
      Nat.mod_eq_of_lt (show v / 4096 < 0x10 by omega)]
  · rw [if_neg h₃, if_neg (show ¬ v ≤ 0xffff by omega), if_pos hlt, hF0 _ (by omega),
      Nat.mod_eq_of_lt (show v / 262144 < 0x08 by omega)]

/-- A byte of an encoding is the character itself or not in ASCII. -/
theorem utf8EncodeChar_byte {c : Char} (hc : c ≠ '\\') :
    ∀ b ∈ String.utf8EncodeChar c, b ≠ chr '\\' := by
  have hne {x : ℕ} (hx : x < 256) (h : x ≠ 92) : UInt8.ofNat x ≠ chr '\\' := by
    intro heq
    have := congrArg UInt8.toNat heq
    rw [UInt8.toNat_ofNat_of_lt' hx] at this
    exact h this
  have hval : c.val.toNat ≠ 92 := fun h => hc (Char.ext (UInt32.toNat_inj.mp h))
  rw [String.utf8EncodeChar]
  split_ifs <;> simp only [List.mem_cons, List.not_mem_nil, or_false, forall_eq_or_imp, forall_eq]
  · exact hne (by omega) hval
  · exact ⟨hne (by omega) (by omega), hne (by omega) (by omega)⟩
  · exact ⟨hne (by omega) (by omega), hne (by omega) (by omega), hne (by omega) (by omega)⟩
  · exact ⟨hne (by omega) (by omega), hne (by omega) (by omega), hne (by omega) (by omega),
      hne (by omega) (by omega)⟩

/-- The decoder goes from one text that is left to another and stores bytes on the way. -/
inductive Emits : List UInt8 → List UInt8 → List UInt8 → Prop
  | refl (t : List UInt8) : Emits t t []
  | put {t u r bs : List UInt8} {c : UInt8} : step t = .put c u → Emits u r bs →
      Emits t r (c :: bs)
  | append {t u r b bs : List UInt8} {v : ℕ} : step t = .append v u → utf8Bytes v = some b →
      Emits u r bs → Emits t r (b ++ bs)

theorem Emits.trans (h : Emits t u bs) (h' : Emits u r bs') : Emits t r (bs ++ bs') := by
  induction h with
  | refl t => exact h'
  | put hstep _ ih => exact .put hstep (ih h')
  | append hstep hb _ ih =>
    rw [List.append_assoc]
    exact .append hstep hb (ih h')

/-- What has been stored at the end of the text is returned. -/
theorem Emits.decodeLoop (h : Emits t r bs) (hr : r = []) (hs : Behind s e t) (hn : t.length < n)
    (d : List UInt8) :
    Json.decodeLoop s e n (e - t.length) (some d) = .ok (some (d ++ bs)) := by
  induction h generalizing n d with
  | refl t =>
    subst hr
    obtain ⟨n, rfl⟩ := Nat.exists_eq_add_one_of_ne_zero (Nat.ne_zero_of_lt hn)
    rw [jsonDecodeLoop_succ, readNext_at hs, List.append_nil]
    rfl
  | @put t u r bs c hstep _ ih =>
    obtain ⟨n, rfl⟩ := Nat.exists_eq_add_one_of_ne_zero (Nat.ne_zero_of_lt hn)
    obtain ⟨hu, hlt⟩ := hs.next (leaves_put hstep) hn
    rw [jsonDecodeLoop_succ, readNext_at hs, ok_bind, hstep]
    exact (ih hr hu hlt (d ++ [c])).trans (by rw [List.append_assoc]; rfl)
  | @append t u r b bs v hstep hb _ ih =>
    obtain ⟨n, rfl⟩ := Nat.exists_eq_add_one_of_ne_zero (Nat.ne_zero_of_lt hn)
    obtain ⟨hu, hlt⟩ := hs.next (leaves_append hstep) hn
    rw [jsonDecodeLoop_succ, readNext_at hs, ok_bind, hstep]
    simp only [Next.place]
    rw [utf8Append_eq, hb]
    exact (ih hr hu hlt (d ++ b)).trans (by rw [List.append_assoc])

theorem Emits.decodeUtf8 (h : Emits t [] bs) :
    Json.decodeUtf8 (quoted t) 0 (quoted t).length = .ok (some bs) := by
  obtain ⟨hbehind, hdecode⟩ := decodeUtf8_quoted t
  rw [jsonDecodeUtf8_eq, hdecode]
  have hloop := h.decodeLoop rfl hbehind (n := t.length + 2) (by omega) []
  rwa [jsonDecodeLoop_eq] at hloop

/-- What the decoder stores for a piece. -/
def Piece.decoded : Piece → List UInt8
  | .surrogates high low _ _ =>
    (utf8Bytes high.value).getD [] ++ (utf8Bytes low.value).getD []
  | p => String.utf8EncodeChar p.char

theorem Hex.mem_digits (x : Hex) : ∀ d ∈ x.digits, isxdigit d = true := by
  simp only [Hex.digits, List.mem_cons, List.not_mem_nil, or_false, forall_eq_or_imp, forall_eq]
  exact ⟨x.d₃.2, x.d₂.2, x.d₁.2, x.d₀.2⟩

theorem Hex.value_lt (x : Hex) : x.value < 0x10000 := by
  have hlen : x.digits.length = 4 := rfl
  have := foldl_hexValue_lt x.mem_digits 0
  rwa [hlen, Nat.zero_add, Nat.one_mul] at this

/-- A hexadecimal digit is not taken for white space, a sign or the mark of a prefix. -/
theorem xdigit_ne {d : UInt8} (hd : isxdigit d = true) :
    isspace d = false ∧ d ≠ chr '-' ∧ d ≠ chr '+' ∧ tolower d ≠ chr 'x' := by
  have hne {c : UInt8} (hc : isxdigit c = false) : d ≠ c := by
    rintro rfl
    rw [hd] at hc
    cases hc
  have hspace : ∀ n < 256, isxdigit (UInt8.ofNat n) = true → isspace (UInt8.ofNat n) = false := by
    decide +kernel
  have hmark : ∀ n < 256, isxdigit (UInt8.ofNat n) = true → tolower (UInt8.ofNat n) ≠ chr 'x' := by
    decide +kernel
  have hofNat : UInt8.ofNat d.toNat = d := UInt8.ofNat_toNat
  refine ⟨?_, hne (by decide), hne (by decide), ?_⟩
  · have := hspace d.toNat d.toNat_lt
    rw [hofNat] at this
    exact this hd
  · have := hmark d.toNat d.toNat_lt
    rw [hofNat] at this
    exact this hd

theorem hexField_digits (x : Hex) (t : List UInt8) : hexField (x.digits ++ t) = some x.value := by
  obtain ⟨hspace, hminus, hplus, -⟩ := xdigit_ne x.d₃.2
  have hdigits : x.digits ++ t = x.d₃.1 :: x.d₂.1 :: x.d₁.1 :: x.d₀.1 :: t := rfl
  have htake : hexDigits 4 (x.digits ++ t) = x.digits := by
    rw [hexDigits, List.take_left' (by rfl)]
    simp [Hex.digits, x.d₃.2, x.d₂.2, x.d₁.2, x.d₀.2]
  have hprefix : ¬ (x.d₃.1 = chr '0' ∧
      (x.d₂.1 :: x.d₁.1 :: x.d₀.1 :: t).head?.any (tolower · = chr 'x') = true) := by
    rintro ⟨-, h⟩
    exact (xdigit_ne x.d₂.2).2.2.2 (by simpa using h)
  rw [hexField, hdigits, List.dropWhile_cons_of_neg (by simp [hspace])]
  simp only
  rw [if_neg hminus, if_neg hplus, hexUnsigned, if_neg hprefix, ← hdigits, htake, hexNumber,
    if_neg (by simp [Hex.digits])]
  rfl

theorem step_escaped (x : Hex) (t : List UInt8) : step (escaped x ++ t) = .append x.value t := by
  have hlist : escaped x ++ t = chr '\\' :: chr 'u' :: (x.digits ++ t) := rfl
  have hlen : 4 ≤ (x.digits ++ t).length := by
    rw [List.length_append]
    exact Nat.le_add_right 4 _
  have hdrop : (x.digits ++ t).drop 4 = t := List.drop_left' rfl
  rw [hlist, step, if_pos rfl, escape]
  simp only [show shortEscape (chr 'u') = none by decide]
  rw [if_pos ⟨trivial, hlen⟩, hexField_digits]
  simp only [hdrop]

theorem emits_escaped {b : List UInt8} (x : Hex) (h : utf8Bytes x.value = some b)
    (t : List UInt8) : Emits (escaped x ++ t) t b := by
  have := Emits.append (step_escaped x t) h (.refl t)
  rwa [List.append_nil] at this

theorem emits_raw (h : ∀ b ∈ bs, b ≠ chr '\\') (t : List UInt8) : Emits (bs ++ t) t bs := by
  induction bs with
  | nil => exact .refl t
  | cons b bs ih =>
    have hstep : step (b :: (bs ++ t)) = .put b (bs ++ t) := if_neg (h b (.head _))
    exact .put hstep (ih fun b hb => h b (.tail _ hb))

theorem emits_short {e c : Char} (h : (e, c) ∈ shortEscapes) (t : List UInt8) :
    Emits ([chr '\\', chr e] ++ t) t (String.utf8EncodeChar c) := by
  simp only [shortEscapes, List.mem_cons, List.not_mem_nil, or_false, Prod.mk.injEq] at h
  rcases h with ⟨rfl, rfl⟩ | ⟨rfl, rfl⟩ | ⟨rfl, rfl⟩ | ⟨rfl, rfl⟩ | ⟨rfl, rfl⟩ | ⟨rfl, rfl⟩ |
    ⟨rfl, rfl⟩ | ⟨rfl, rfl⟩ <;> exact .put rfl (.refl t)

theorem utf8Bytes_getD (h : v < 0x10000) : utf8Bytes v = some ((utf8Bytes v).getD []) := by
  rw [utf8Bytes]
  split_ifs <;> rfl

/-- Each piece is decoded on its own. -/
theorem Piece.emits (p : Piece) (t : List UInt8) : Emits (p.text ++ t) t p.decoded := by
  cases p with
  | raw c h => exact emits_raw (utf8EncodeChar_byte h.2.2) t
  | short e c h => exact emits_short h t
  | unicode x h =>
    refine emits_escaped x (utf8Bytes_eq ?_) t
    have := x.value_lt
    rcases h with h | h
    · exact .inl h
    · exact .inr ⟨by omega, by omega⟩
  | surrogates high low _ _ =>
    rw [Piece.text, List.append_assoc]
    exact (emits_escaped high (utf8Bytes_getD high.value_lt) _).trans
      (emits_escaped low (utf8Bytes_getD low.value_lt) t)

theorem emits_pieces (ps : List Piece) :
    Emits (ps.flatMap Piece.text) [] (ps.flatMap Piece.decoded) := by
  induction ps with
  | nil => exact .refl []
  | cons p ps ih =>
    rw [List.flatMap_cons, List.flatMap_cons]
    exact (p.emits _).trans ih

/-- A literal is always decoded, to the bytes of its pieces. -/
theorem decodeUtf8_literal (ps : List Piece) :
    Json.decodeUtf8 (literal ps) 0 (literal ps).length = .ok (some (ps.flatMap Piece.decoded)) :=
  (emits_pieces ps).decodeUtf8

/-- For a pair of surrogates there are six bytes, for its character four. -/
theorem Piece.length_decoded (p : Piece) : p.decoded.length =
    (String.utf8EncodeChar p.char).length + if p.isPair then 2 else 0 := by
  cases p with
  | raw c h => rfl
  | short e c h => rfl
  | unicode x h => rfl
  | surrogates high low hhigh hlow =>
    have hthree {v : ℕ} (hle : 0x800 ≤ v) (hlt : v < 0x10000) :
        ((utf8Bytes v).getD []).length = 3 := by
      rw [utf8Bytes, if_neg (by omega), if_neg (by omega), if_pos hlt]
      rfl
    obtain ⟨v, hv⟩ : ∃ v, v = 0x10000 + (high.value - 0xD800) * 0x400 + (low.value - 0xDC00) :=
      ⟨_, rfl⟩
    have hchar : some (String.utf8EncodeChar (Char.ofNat v)) = utf8Bytes v :=
      (utf8Bytes_eq (.inr ⟨by omega, by omega⟩)).symm
    rw [utf8Bytes, if_neg (by omega), if_neg (by omega), if_neg (by omega), if_pos (by omega)]
      at hchar
    rw [Piece.decoded, Piece.char, ← hv, Option.some.inj hchar, List.length_append,
      hthree (by omega) high.value_lt, hthree (by omega) low.value_lt]
    rfl

theorem length_decoded (ps : List Piece) : (ps.flatMap Piece.decoded).length =
    (encoding ps).length + 2 * ps.countP Piece.isPair := by
  induction ps with
  | nil => rfl
  | cons p ps ih =>
    rw [encoding] at ih
    rw [encoding, List.map_cons, List.flatMap_cons, List.flatMap_cons, List.length_append,
      List.length_append, ih, p.length_decoded, List.countP_cons]
    split <;> omega

/-- The literal of a string is decoded to the encoding of the string if and only if no character of
it is written as a pair of surrogates. -/
theorem decodes_iff (ps : List Piece) :
    Json.decodeUtf8 (literal ps) 0 (literal ps).length = .ok (some (encoding ps)) ↔
      ∀ p ∈ ps, p.isPair = false := by
  rw [decodeUtf8_literal]
  have hpairs : ps.countP Piece.isPair = 0 ↔ ∀ p ∈ ps, p.isPair = false := by
    simp [List.countP_eq_zero]
  rw [← hpairs]
  constructor
  · intro h
    have hlen := congrArg List.length (Option.some.inj (Except.ok.inj h))
    rw [length_decoded] at hlen
    omega
  · intro h
    have hdecoded : ∀ p ∈ ps, p.decoded = String.utf8EncodeChar p.char := by
      intro p hp
      have hpair := hpairs.mp h p hp
      cases p with
      | raw c h => rfl
      | short e c h => rfl
      | unicode x h => rfl
      | surrogates high low hhigh hlow => cases hpair
    rw [encoding, List.flatMap_map]
    exact congrArg (fun l => Except.ok (some l)) (List.flatMap_congr hdecoded)

/-- The literal `"\uD834\uDD1E"` of the clef, whose encoding is `F0 9D 84 9E`. -/
def clef : Piece :=
  .surrogates ⟨⟨chr 'D', rfl⟩, ⟨chr '8', rfl⟩, ⟨chr '3', rfl⟩, ⟨chr '4', rfl⟩⟩
    ⟨⟨chr 'D', rfl⟩, ⟨chr 'D', rfl⟩, ⟨chr '1', rfl⟩, ⟨chr 'E', rfl⟩⟩ (by decide) (by decide)

theorem not_decodes_clef : encoding [clef] = [0xF0, 0x9D, 0x84, 0x9E] ∧
    Json.decodeUtf8 (literal [clef]) 0 (literal [clef]).length =
      .ok (some [0xED, 0xA0, 0xB4, 0xED, 0xB4, 0x9E]) ∧
    Json.decodeUtf8 (literal [clef]) 0 (literal [clef]).length ≠ .ok (some (encoding [clef])) := by
  have hdecoded : Json.decodeUtf8 (literal [clef]) 0 (literal [clef]).length =
      .ok (some [0xED, 0xA0, 0xB4, 0xED, 0xB4, 0x9E]) := rfl
  refine ⟨by decide, hdecoded, fun h => ?_⟩
  exact absurd (Option.some.inj (Except.ok.inj (hdecoded.symm.trans h))) (by decide)

end Libuo.JsonDecodeUnicode
