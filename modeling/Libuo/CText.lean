import Libuo.CStrings
import Mathlib.Data.Int.Notation
import Mathlib.Data.List.TakeWhile

/-!
# C strings as lists

Functions of the C library over the bytes behind a pointer. A string is given without
its terminating NUL, and positions in it are offsets from its start.
-/

namespace Libuo.CText
open CStrings

/-- A string literal. -/
def text (s : String) : List UInt8 := s.toList.map chr

/-- The string at the start of a block, which ends at the first NUL or with the block. -/
def cstr (s : List UInt8) : List UInt8 := s.takeWhile (· ≠ 0)

def memchr (s : List UInt8) (c : UInt8) (n : ℕ) : Option ℕ := (s.take n).idxOf? c

/-- `strchr`, for a character other than NUL. -/
def strchr (s : List UInt8) (c : UInt8) : Option ℕ := s.idxOf? c

/-- `strrchr`, for a character other than NUL. -/
def strrchr : List UInt8 → UInt8 → Option ℕ
  | [], _ => none
  | d :: s, c =>
    match strrchr s c with
    | some i => some (i + 1)
    | none => if d = c then some 0 else none

def strstr : List UInt8 → List UInt8 → Option ℕ
  | [], needle => if needle = [] then some 0 else none
  | c :: s, needle => if needle.isPrefixOf (c :: s) then some 0 else (strstr s needle).map (· + 1)

/-- `strtok_r`: the token, and what is behind the delimiter that has ended it, if one has. -/
def strtok (delims s : List UInt8) : Option (List UInt8 × Option (List UInt8)) :=
  match s.dropWhile (delims.contains ·) with
  | [] => none
  | c :: s =>
    some ((c :: s).takeWhile (!delims.contains ·), ((c :: s).dropWhile (!delims.contains ·)).tail?)

/-- The value of decimal digits. -/
def decimal (digits : List UInt8) : ℕ :=
  digits.foldl (fun n c => 10 * n + (c.toNat - (chr '0').toNat)) 0

/-- An optional sign, and what is behind it. -/
def sign : List UInt8 → Bool × List UInt8
  | [] => (false, [])
  | c :: s => if c = chr '-' then (true, s) else if c = chr '+' then (false, s) else (false, c :: s)

/-- `strtoull` in base ten; nothing when it sets `errno`. -/
def strtoull (s : List UInt8) : Option ℕ :=
  let (negative, digits) := sign (s.dropWhile isspace)
  let n := decimal (digits.takeWhile isdigit)
  if n < 2 ^ 64 then some (if negative then (2 ^ 64 - n) % 2 ^ 64 else n) else none

/-- The conversion `%d` of `sscanf`, of a number that an `int` holds; it is undefined for others. -/
def scanInt (s : List UInt8) : Option ℤ :=
  let (negative, s) := sign (s.dropWhile isspace)
  let digits := s.takeWhile isdigit
  if digits = [] then none else some (if negative then -(decimal digits : ℤ) else decimal digits)

/-- The conversion `%lu` of `printf`. -/
def printNat (n : ℕ) : List UInt8 := (Nat.toDigits 10 n).map chr

variable {s l r needle delims : List UInt8} {c : UInt8} {n i : ℕ}

theorem cstr_eq (h : 0 ∉ s) : cstr s = s :=
  List.takeWhile_eq_self_iff.mpr fun c hc => by
    simpa using fun h0 : c = 0 => h (h0 ▸ hc)

theorem zero_not_mem_cstr (s : List UInt8) : 0 ∉ cstr s := by
  intro h
  simpa using List.mem_takeWhile_imp h

theorem cstr_append (h : 0 ∉ l) (r : List UInt8) : cstr (l ++ r) = l ++ cstr r := by
  rw [cstr, List.takeWhile_append_of_pos fun c hc => by simpa using fun h0 : c = 0 => h (h0 ▸ hc)]
  rfl

theorem cstr_prefix (s r : List UInt8) : cstr s <+: cstr (s ++ r) := by
  rw [cstr, cstr, List.takeWhile_append]
  split
  · exact (List.takeWhile_prefix _).trans (List.prefix_append _ _)
  · exact List.prefix_refl _

theorem cstr_append_zero (l r : List UInt8) : cstr (l ++ 0 :: r) = cstr l := by
  induction l with
  | nil => simp [cstr]
  | cons c l ih =>
    by_cases hc : c = 0
    · simp [cstr, hc]
    · simp only [cstr, List.cons_append] at ih ⊢
      rw [List.takeWhile_cons_of_pos (by simpa using hc),
        List.takeWhile_cons_of_pos (by simpa using hc), ih]

/-- A block that has a NUL is a string, the NUL, and what is behind it. -/
theorem exists_cstr (h : 0 ∈ s) : ∃ r, s = cstr s ++ 0 :: r ∧ 0 ∉ cstr s := by
  obtain ⟨l, r, rfl, hl⟩ := List.eq_append_cons_of_mem h
  have hcstr : cstr (l ++ 0 :: r) = l := by
    rw [cstr_append hl]
    simp [cstr]
  exact ⟨r, by rw [hcstr], by rwa [hcstr]⟩

theorem idxOf?_append_cons (hc : c ∉ l) (r : List UInt8) :
    (l ++ c :: r).idxOf? c = some l.length := by
  induction l with
  | nil => simp [List.idxOf?_cons]
  | cons d l ih =>
    obtain ⟨hd, hl⟩ := not_or.mp (mt List.mem_cons.mpr hc)
    rw [List.cons_append, List.idxOf?_cons, ih hl]
    have : (d == c) = false := by simpa using Ne.symm hd
    simp [this]

theorem memchr_eq (hc : c ∉ l) (hn : l.length < n) : memchr (l ++ c :: r) c n = some l.length := by
  obtain ⟨k, rfl⟩ := Nat.exists_eq_add_of_lt hn
  rw [memchr, List.take_append, List.take_of_length_le (by omega),
    show l.length + k + 1 - l.length = k + 1 by omega, List.take_succ_cons]
  exact idxOf?_append_cons hc _

theorem memchr_eq_none (hc : c ∉ s.take n) : memchr s c n = none := by
  rw [memchr, List.idxOf?_eq_none_iff]
  exact hc

theorem strchr_eq (hc : c ∉ l) : strchr (l ++ c :: r) c = some l.length := idxOf?_append_cons hc r

theorem strrchr_eq_none (hc : c ∉ s) : strrchr s c = none := by
  induction s with
  | nil => rfl
  | cons d s ih =>
    obtain ⟨hd, hs⟩ := not_or.mp (mt List.mem_cons.mpr hc)
    rw [strrchr, ih hs]
    exact if_neg (Ne.symm hd)

theorem strrchr_eq (hc : c ∉ r) : strrchr (l ++ c :: r) c = some l.length := by
  induction l with
  | nil => simp [strrchr, strrchr_eq_none hc]
  | cons d l ih => rw [List.cons_append, strrchr, ih]; rfl

/-- A search gives the first place where the needle is. -/
theorem strstr_eq_some (h : needle ≠ []) :
    strstr s needle = some i ↔ needle <+: s.drop i ∧ ∀ j < i, ¬ needle <+: s.drop j := by
  induction s generalizing i with
  | nil => simp [strstr, h]
  | cons c s ih =>
    rw [strstr]
    split
    · rename_i hp
      have hp : needle <+: c :: s := List.isPrefixOf_iff_prefix.mp hp
      constructor
      · intro hi
        obtain rfl := Option.some.inj hi
        exact ⟨hp, fun j hj => absurd hj (Nat.not_lt_zero j)⟩
      · rintro ⟨-, hfirst⟩
        cases i with
        | zero => rfl
        | succ i => exact absurd hp (hfirst 0 (Nat.succ_pos i))
    · rename_i hp
      have hp : ¬ needle <+: c :: s := fun hn => hp (List.isPrefixOf_iff_prefix.mpr hn)
      cases i with
      | zero => simpa using hp
      | succ i =>
        rw [Option.map_eq_some_iff]
        constructor
        · rintro ⟨k, hk, hki⟩
          obtain rfl := Nat.succ.inj hki
          obtain ⟨hat_, hfirst⟩ := ih.mp hk
          refine ⟨hat_, fun j hj => ?_⟩
          cases j with
          | zero => exact hp
          | succ j => exact hfirst j (Nat.lt_of_succ_lt_succ hj)
        · rintro ⟨hat_, hfirst⟩
          exact ⟨i, ih.mpr ⟨hat_, fun j hj => hfirst (j + 1) (Nat.succ_lt_succ hj)⟩, rfl⟩

theorem strstr_eq_none (h : needle ≠ []) : strstr s needle = none ↔ ¬ needle <:+: s := by
  induction s with
  | nil => simp [strstr, h]
  | cons c s ih =>
    rw [strstr]
    split
    · rename_i hp
      simpa using (List.isPrefixOf_iff_prefix.mp hp).isInfix
    · rename_i hp
      rw [Option.map_eq_none_iff, ih, List.infix_cons_iff, not_or]
      exact ⟨fun hs => ⟨by simpa using hp, hs⟩, And.right⟩

/-- A text that has been cut off before the end of the first needle has none. -/
theorem strstr_cut (h : needle ≠ []) (hs : strstr (l ++ r) needle = some i)
    (hl : l.length < i + needle.length) : strstr l needle = none := by
  cases hl' : strstr l needle with
  | none => rfl
  | some j =>
    obtain ⟨hat_, -⟩ := (strstr_eq_some h).mp hl'
    obtain ⟨-, hfirst⟩ := (strstr_eq_some h).mp hs
    have hlen := hat_.length_le
    have hpos := List.length_pos_of_ne_nil h
    rw [List.length_drop] at hlen
    refine absurd ?_ (hfirst j (by omega))
    rw [List.drop_append_of_le_length (by omega)]
    exact hat_.trans (List.prefix_append _ _)

/-- Characters other than the first one of the needle are passed over. -/
theorem strstr_skip (h : c ∉ l) : strstr (l ++ r) (c :: needle) =
    (strstr r (c :: needle)).map (· + l.length) := by
  induction l with
  | nil => simp
  | cons d l ih =>
    obtain ⟨hd, hl⟩ := not_or.mp (mt List.mem_cons.mpr h)
    rw [List.cons_append, strstr, if_neg (by simp [hd]), ih hl, Option.map_map]
    rfl

theorem strtok_eq (hl : ∀ c ∈ l, c ∈ delims) (hs : ∀ c ∈ s, c ∉ delims) (hne : s ≠ [])
    (hr : ∀ c ∈ r.head?, c ∈ delims) : strtok delims (l ++ (s ++ r)) = some (s, r.tail?) := by
  obtain ⟨c, s, rfl⟩ := List.exists_cons_of_ne_nil hne
  have hdrop : (l ++ (c :: s ++ r)).dropWhile (delims.contains ·) = c :: (s ++ r) := by
    rw [List.dropWhile_append_of_pos fun c hc => by simpa using hl c hc, List.cons_append,
      List.dropWhile_cons_of_neg]
    simpa using hs c (.head _)
  have hpos : ∀ d ∈ c :: s, (!delims.contains d) = true := fun d hd => by simpa using hs d hd
  have hstop : r.takeWhile (!delims.contains ·) = [] ∧ r.dropWhile (!delims.contains ·) = r := by
    cases r with
    | nil => exact ⟨rfl, rfl⟩
    | cons d r => simp [hr d rfl]
  rw [strtok, hdrop]
  simp only [← List.cons_append]
  rw [List.takeWhile_append_of_pos hpos, List.dropWhile_append_of_pos hpos, hstop.1, hstop.2,
    List.append_nil]

theorem printNat_ne_nil (n : ℕ) : printNat n ≠ [] := by
  simp [printNat, Nat.toDigits_ne_nil]

private theorem foldl_chr {digits : List Char} (h : ∀ d ∈ digits, d.isDigit) (n : ℕ) :
    (digits.map chr).foldl (fun n c => 10 * n + (c.toNat - (chr '0').toNat)) n =
      Nat.ofDigitChars 10 digits n := by
  induction digits generalizing n with
  | nil => rfl
  | cons d digits ih =>
    have hd : (chr d).toNat = d.toNat := (toNat_chr (h d (.head _))).1
    rw [List.map_cons, List.foldl_cons, hd, ih fun d' hd' => h d' (.tail _ hd'),
      Nat.ofDigitChars_cons]
    rfl

theorem decimal_printNat (n : ℕ) : decimal (printNat n) = n := by
  rw [decimal, printNat, foldl_chr fun d => Nat.isDigit_of_mem_toDigits (by decide) (by decide)]
  exact Nat.ofDigitChars_ten_toDigits

/-- Digits, up to a character that is none. -/
theorem strtoull_digits {digits : List UInt8} (hne : digits ≠ [])
    (hdigits : ∀ d ∈ digits, isdigit d = true) (hr : ∀ d ∈ r.head?, isdigit d = false)
    (hlt : decimal digits < 2 ^ 64) : strtoull (digits ++ r) = some (decimal digits) := by
  obtain ⟨d, ds, rfl⟩ := List.exists_cons_of_ne_nil hne
  have hd := hdigits d (.head _)
  have hspace := not_isspace_of_isdigit hd
  have hminus : d ≠ chr '-' := fun h => absurd (h ▸ hd) (by decide)
  have hplus : d ≠ chr '+' := fun h => absurd (h ▸ hd) (by decide)
  have hskip : (d :: ds ++ r).dropWhile isspace = d :: (ds ++ r) := by
    rw [List.cons_append, List.dropWhile_cons_of_neg (by simp [hspace])]
  have hsign : sign (d :: (ds ++ r)) = (false, d :: (ds ++ r)) := by
    rw [sign, if_neg hminus, if_neg hplus]
  have htake : (d :: (ds ++ r)).takeWhile isdigit = d :: ds := by
    rw [← List.cons_append, List.takeWhile_append_of_pos hdigits]
    cases r with
    | nil => simp
    | cons c r => rw [List.takeWhile_cons_of_neg (by simp [hr c rfl]), List.append_nil]
  rw [strtoull, hskip, hsign]
  simp only [htake, if_pos hlt]
  rfl

end Libuo.CText
