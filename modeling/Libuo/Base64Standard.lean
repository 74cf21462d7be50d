import Libuo.Base64Url
import Libuo.CText

/-!
# The standard texts

Base64 as the standard has it: a group of three bytes is a number of 24 bits, whose four digits to
the base 64 are characters of an alphabet, and what is missing in the last group is zero, with
padding in place of the characters that are zero only for that reason. The text for URLs has two
other characters and no padding.
-/

namespace Libuo.Base64Standard
open CMemory CStrings CText SextetCodec Base64

/-- The characters of the digits. -/
def characters : List UInt8 :=
  text "ABCDEFGHIJKLMNOPQRSTUVWXYZabcdefghijklmnopqrstuvwxyz0123456789+/"

/-- Three bytes as one number. -/
def group (b0 b1 b2 : UInt8) : ℕ := b0.toNat * 2 ^ 16 + b1.toNat * 2 ^ 8 + b2.toNat

/-- One of the four digits of a group; the first one is the highest. -/
def digit (n i : ℕ) : ℕ := n / 64 ^ (3 - i) % 64

def character (n i : ℕ) : UInt8 := characters.getD (digit n i) 0

/-- The base64 text of a byte string. -/
def standardText : List UInt8 → List UInt8
  | [] => []
  | [b0] =>
    let n := group b0 0 0
    [character n 0, character n 1, chr '=', chr '=']
  | [b0, b1] =>
    let n := group b0 b1 0
    [character n 0, character n 1, character n 2, chr '=']
  | b0 :: b1 :: b2 :: x =>
    let n := group b0 b1 b2
    character n 0 :: character n 1 :: character n 2 :: character n 3 :: standardText x

def urlCharacter (c : UInt8) : UInt8 :=
  if c = chr '+' then chr '-' else if c = chr '/' then chr '_' else c

/-- A text for URLs. -/
def urlForm (l : List UInt8) : List UInt8 := (l.rdropWhile (· = chr '=')).map urlCharacter

/-- The two encoders write the standard texts to a destination, and nothing else. A destination may
be the source, or behind its start. -/
structure Encodes (x : List UInt8) : Prop where
  length : (standardText x).length = base64Len x.length
  base64Len : base64Len x.length = 4 * ((x.length + 2) / 3)
  base64 (m : Memory) (dst src : ℕ) : Holds m src x → Mapped m dst (standardText x).length →
    (src ≤ dst ∨ dst + (standardText x).length ≤ src) →
    encode m dst src x.length =
      some (write m dst (standardText x), dst + (standardText x).length)
  base64url (m : Memory) (dst src : ℕ) : Holds m src x →
    Mapped m dst (urlForm (standardText x)).length →
    (src ≤ dst ∨ dst + (urlForm (standardText x)).length ≤ src) →
    Base64Url.encode m dst src x.length =
      some (write m dst (urlForm (standardText x)), dst + (urlForm (standardText x)).length)

variable {b0 b1 b2 : UInt8} {x : List UInt8}

theorem toNat_sextet0 (b0 : UInt8) : (sextet0 b0).toNat = b0.toNat / 4 := by
  rw [sextet0, UInt8.toNat_shiftRight, Nat.shiftRight_eq_div_pow]
  rfl

theorem toNat_sextet1 (b0 b1 : UInt8) :
    (sextet1 b0 b1).toNat = b0.toNat % 4 * 16 + b1.toNat / 16 := by
  have hlow : b0.toNat &&& 3 = b0.toNat % 4 := Nat.and_two_pow_sub_one_eq_mod b0.toNat 2
  have hhigh : b1.toNat >>> 4 = b1.toNat / 16 := Nat.shiftRight_eq_div_pow _ _
  have hlt : b1.toNat / 16 < 2 ^ 4 := by
    have := b1.toNat_lt
    omega
  have hor := Nat.shiftLeft_add_eq_or_of_lt hlt (b0.toNat % 4)
  have hmod : (b0.toNat % 4) <<< 4 % 2 ^ 8 = (b0.toNat % 4) <<< 4 := by
    rw [Nat.shiftLeft_eq]
    omega
  rw [sextet1, UInt8.toNat_or, UInt8.toNat_shiftLeft, UInt8.toNat_and, UInt8.toNat_shiftRight]
  change (b0.toNat &&& 3) <<< 4 % 2 ^ 8 ||| b1.toNat >>> 4 = _
  rw [hlow, hhigh, hmod, ← hor, Nat.shiftLeft_eq]

theorem toNat_sextet2 (b1 b2 : UInt8) :
    (sextet2 b1 b2).toNat = b1.toNat % 16 * 4 + b2.toNat / 64 := by
  have hlow : b1.toNat &&& 15 = b1.toNat % 16 := Nat.and_two_pow_sub_one_eq_mod b1.toNat 4
  have hhigh : b2.toNat >>> 6 = b2.toNat / 64 := Nat.shiftRight_eq_div_pow _ _
  have hlt : b2.toNat / 64 < 2 ^ 2 := by
    have := b2.toNat_lt
    omega
  have hor := Nat.shiftLeft_add_eq_or_of_lt hlt (b1.toNat % 16)
  have hmod : (b1.toNat % 16) <<< 2 % 2 ^ 8 = (b1.toNat % 16) <<< 2 := by
    rw [Nat.shiftLeft_eq]
    omega
  rw [sextet2, UInt8.toNat_or, UInt8.toNat_shiftLeft, UInt8.toNat_and, UInt8.toNat_shiftRight]
  change (b1.toNat &&& 15) <<< 2 % 2 ^ 8 ||| b2.toNat >>> 6 = _
  rw [hlow, hhigh, hmod, ← hor, Nat.shiftLeft_eq]

theorem toNat_sextet3 (b2 : UInt8) : (sextet3 b2).toNat = b2.toNat % 64 := by
  rw [sextet3, UInt8.toNat_and]
  exact Nat.and_two_pow_sub_one_eq_mod b2.toNat 6

/-- The digits of a group are its sextets. -/
theorem digit_group (b0 b1 b2 : UInt8) :
    digit (group b0 b1 b2) 0 = (sextet0 b0).toNat ∧
      digit (group b0 b1 b2) 1 = (sextet1 b0 b1).toNat ∧
      digit (group b0 b1 b2) 2 = (sextet2 b1 b2).toNat ∧
      digit (group b0 b1 b2) 3 = (sextet3 b2).toNat := by
  have h0 := b0.toNat_lt
  have h1 := b1.toNat_lt
  have h2 := b2.toNat_lt
  simp only [digit, group, toNat_sextet0, toNat_sextet1, toNat_sextet2, toNat_sextet3]
  refine ⟨?_, ?_, ?_, ?_⟩ <;> norm_num <;> omega

theorem btoaTable_eq : btoaTable = characters := by decide

theorem character_eq {n i : ℕ} {s : UInt8} (h : digit n i = s.toNat) : character n i = btoa s := by
  rw [character, h, btoa, btoaTable_eq]

/-- The text that the encoder writes is the standard one. -/
theorem text_alphabet (x : List UInt8) : alphabet.text x = standardText x := by
  fun_induction standardText x with
  | case1 => rfl
  | case2 b0 n =>
    obtain ⟨h0, h1, -, -⟩ := digit_group b0 0 0
    rw [character_eq h0, character_eq h1]
    rfl
  | case3 b0 b1 n =>
    obtain ⟨h0, h1, h2, -⟩ := digit_group b0 b1 0
    rw [character_eq h0, character_eq h1, character_eq h2]
    rfl
  | case4 b0 b1 b2 x n ih =>
    obtain ⟨h0, h1, h2, h3⟩ := digit_group b0 b1 b2
    rw [character_eq h0, character_eq h1, character_eq h2, character_eq h3, Alphabet.text, ih]
    rfl

theorem btoaUrl_eq : ∀ s < 64, Base64Url.btoaUrl s = urlCharacter (btoa s) :=
  forall_sextet (by decide +kernel)

theorem text_url (x : List UInt8) : Base64Url.text x = urlForm (standardText x) := by
  have hmap : Base64Url.alphabet.bareText x = (alphabet.bareText x).map urlCharacter :=
    Alphabet.bareText_map btoaUrl_eq x
  rw [Base64Url.text, hmap, ← alphabet.rdropWhile_text, text_alphabet]
  rfl

/-- The encoders write the standard texts of all byte strings that are not too long for the
multiplication in the length. -/
theorem encodes (hlen : x.length < 2 ^ 62) : Encodes x := by
  have hlength : (standardText x).length = Base64.base64Len x.length := by
    rw [← text_alphabet, length_text hlen]
  refine ⟨hlength, ?_, fun m dst src hs hm ho => ?_, fun m dst src hs hm ho => ?_⟩
  · rw [base64Len_eq, Nat.mod_eq_of_lt hlen]
  · rw [hlength] at hm ho ⊢
    rw [← text_alphabet]
    exact encode_eq hs hlen hm ho
  · rw [← text_url] at hm ho ⊢
    exact Base64Url.encode_eq hs hlen hm ho

/-- Two bytes left over, and both of the characters that differ. -/
theorem encodes_two : Encodes [0xFB, 0xEF, 0xBF, 0x3F, 0xFF] := encodes (by decide)

example : standardText [0xFB, 0xEF, 0xBF, 0x3F, 0xFF] = text "+++/P/8=" ∧
    urlForm (text "+++/P/8=") = text "---_P_8" := by
  decide

end Libuo.Base64Standard
