import Mathlib.Algebra.Group.Nat.Defs
import Mathlib.Data.List.Basic
import Mathlib.Data.Nat.Notation
import Mathlib.Tactic.Common

/-!
# Reading NUL-terminated text

A pointer is an index into one block of memory. Functions of the C library that
read text are given over such a block. A computation stops with a fault when it
reads outside the block, and for lack of fuel when a loop has been cut short; a
returned pointer may be `NULL`.
-/

namespace Libuo.CStrings

/-- The code of an ASCII character. -/
def chr (c : Char) : UInt8 := c.toNat.toUInt8

/-- A property of the bytes of a text is decided along the text, not over all bytes. -/
instance (priority := high) decidableForallMem (l : List UInt8) (P : UInt8 → Prop)
    [DecidablePred P] : Decidable (∀ c ∈ l, P c) := List.decidableBAll P l

instance (priority := high) decidableForallMemOption (o : Option UInt8) (P : UInt8 → Prop)
    [DecidablePred P] : Decidable (∀ c ∈ o, P c) := Option.decidableForallMem o

/-- Why a computation gives no result. -/
inductive Stop where
  | fault | fuel
  deriving DecidableEq, Repr

/-- A computation over text. -/
abbrev Scan := Except Stop

@[simp] theorem ok_bind {α β : Type} (a : α) (f : α → Scan β) :
    ((Except.ok a : Scan α) >>= f) = f a := rfl

@[simp] theorem error_bind {α β : Type} (e : Stop) (f : α → Scan β) :
    ((Except.error e : Scan α) >>= f) = .error e := rfl

@[simp] theorem pure_eq_ok {α : Type} (a : α) : (pure a : Scan α) = .ok a := rfl

/-- Every result satisfies a condition. -/
def Returns {α : Type} (x : Scan α) (P : α → Prop) : Prop := ∀ a, x = .ok a → P a

/-- `y` is `x`, unless `x` lacked fuel. -/
def Extends {α : Type} (x y : Scan α) : Prop := x = .error .fuel ∨ x = y

section
variable {α β : Type} {x y : Scan α} {f g : α → Scan β} {P : α → Prop} {Q : β → Prop} {a : α}

@[simp] theorem returns_ok : Returns (.ok a) P ↔ P a :=
  ⟨fun h => h a rfl, fun h _ ha => Except.ok.inj ha ▸ h⟩

@[simp] theorem returns_error {e : Stop} : Returns (.error e : Scan α) P := nofun

theorem Returns.bind (hx : Returns x P) (hf : ∀ a, P a → Returns (f a) Q) :
    Returns (x >>= f) Q := by
  cases x with
  | error e => exact returns_error
  | ok a => exact hf a (hx a rfl)

theorem returns_true (x : Scan α) : Returns x fun _ => True := fun _ _ => trivial

theorem Extends.refl (x : Scan α) : Extends x x := .inr rfl

theorem extends_fuel (x : Scan α) : Extends (.error .fuel) x := .inl rfl

theorem Extends.bind (hx : Extends x y) (hf : ∀ a, Extends (f a) (g a)) :
    Extends (x >>= f) (y >>= g) := by
  obtain rfl | rfl := hx
  · exact extends_fuel _
  · cases x with
    | error e => exact .refl _
    | ok a => exact hf a

theorem Extends.ok (h : Extends x y) (hx : x = .ok a) : y = .ok a := by
  obtain rfl | rfl := h
  · nomatch hx
  · exact hx

end

def isspace (c : UInt8) : Bool := c = 0x20 || 9 ≤ c && c ≤ 13
def isdigit (c : UInt8) : Bool := chr '0' ≤ c && c ≤ chr '9'
def iscntrl (c : UInt8) : Bool := c < 0x20 || c = 0x7F

def isxdigit (c : UInt8) : Bool :=
  isdigit c || chr 'a' ≤ c && c ≤ chr 'f' || chr 'A' ≤ c && c ≤ chr 'F'

def tolower (c : UInt8) : UInt8 := if chr 'A' ≤ c && c ≤ chr 'Z' then c + 0x20 else c

theorem toNat_chr {c : Char} (h : c.isDigit) :
    (chr c).toNat = c.toNat ∧ 48 ≤ c.toNat ∧ c.toNat ≤ 57 := by
  have hdigit : 48 ≤ c.toNat ∧ c.toNat ≤ 57 := by
    simpa [Char.isDigit, UInt32.le_iff_toNat_le] using h
  refine ⟨?_, hdigit⟩
  simp only [chr, Nat.toUInt8, UInt8.toNat_ofNat']
  omega

/-- The characters of a number in base ten. -/
theorem isdigit_toDigits (n : ℕ) : ∀ c ∈ (Nat.toDigits 10 n).map chr, isdigit c = true := by
  intro c hc
  obtain ⟨d, hd, rfl⟩ := List.mem_map.mp hc
  obtain ⟨hchr, hdigit⟩ := toNat_chr (Nat.isDigit_of_mem_toDigits (by decide) (by decide) hd)
  simp only [isdigit, Bool.and_eq_true, decide_eq_true_eq, UInt8.le_iff_toNat_le, hchr]
  exact hdigit

theorem not_isspace_of_isdigit {c : UInt8} (h : isdigit c = true) : isspace c = false := by
  simp only [isdigit, Bool.and_eq_true, decide_eq_true_eq, UInt8.le_iff_toNat_le] at h
  change 48 ≤ c.toNat ∧ c.toNat ≤ 57 at h
  simp only [isspace, Bool.or_eq_false_iff, Bool.and_eq_false_iff, decide_eq_false_iff_not,
    UInt8.le_iff_toNat_le, ← UInt8.toNat_inj]
  change ¬ c.toNat = 32 ∧ (¬ 9 ≤ c.toNat ∨ ¬ c.toNat ≤ 13)
  omega

/-- `*p`. -/
def load (s : List UInt8) (p : ℕ) : Scan UInt8 :=
  match s[p]? with
  | some c => .ok c
  | none => .error .fault

/-- `while (f(*p)) ++p` over the text from `p` on. -/
def skipFrom (f : UInt8 → Bool) : List UInt8 → ℕ → Scan ℕ
  | [], _ => .error .fault
  | c :: l, p => if f c then skipFrom f l (p + 1) else .ok p

def skipWhile (f : UInt8 → Bool) (s : List UInt8) (p : ℕ) : Scan ℕ := skipFrom f (s.drop p) p

/-- The text from `p` on is searched for `c`, up to and including its end. -/
def strchrFrom (c : UInt8) : List UInt8 → ℕ → Scan (Option ℕ)
  | [], _ => .error .fault
  | d :: l, p =>
    if d = c then .ok (some p)
    else if d = 0 then .ok none
    else strchrFrom c l (p + 1)

def strchr (s : List UInt8) (p : ℕ) (c : UInt8) : Scan (Option ℕ) := strchrFrom c (s.drop p) p

/-- The block from position `p` on is `l`. -/
def At (s : List UInt8) (p : ℕ) (l : List UInt8) : Prop := s.drop p = l

variable {s l r : List UInt8} {p : ℕ} {c d : UInt8} {f : UInt8 → Bool}

theorem At.cons (h : At s p (c :: l)) : At s (p + 1) l := by
  rw [At, ← List.drop_drop, h, List.drop_one, List.tail_cons]

theorem At.append (h : At s p (l ++ r)) : At s (p + l.length) r := by
  rw [At, ← List.drop_drop, h, List.drop_left]

theorem At.get (h : At s p (l ++ r)) {i : ℕ} (hi : i < l.length) : s[p + i]? = l[i]? := by
  rw [← List.getElem?_drop, h, List.getElem?_append_left hi]

theorem at_append (s l : List UInt8) : At (s ++ l) s.length l := List.drop_left

theorem load_at (h : At s p (c :: l)) : load s p = .ok c := by
  have := h.get (l := [c]) (r := l) (i := 0) (by simp)
  simp_all [load]

/-- A stretch satisfying the condition is skipped. -/
theorem skipWhile_at (h : At s p (l ++ c :: r)) (hl : ∀ d ∈ l, f d = true) (hc : f c = false) :
    skipWhile f s p = .ok (p + l.length) := by
  rw [skipWhile, h]
  clear h
  induction l generalizing p with
  | nil => simp [skipFrom, hc]
  | cons d l ih =>
    have hd := hl d (by simp)
    rw [List.cons_append, skipFrom, if_pos hd, ih fun e he => hl e (by simp [he])]
    simp [Nat.add_assoc, Nat.add_comm 1]

theorem skipWhile_stop (h : At s p (c :: r)) (hc : f c = false) : skipWhile f s p = .ok p :=
  skipWhile_at (l := []) h (by simp) hc

/-- The first occurrence is found. -/
theorem strchr_at (h : At s p (l ++ c :: r)) (hc : c ∉ l) (h0 : 0 ∉ l) :
    strchr s p c = .ok (some (p + l.length)) := by
  rw [strchr, h]
  clear h
  induction l generalizing p with
  | nil => simp [strchrFrom]
  | cons d l ih =>
    simp only [List.mem_cons, not_or] at hc h0
    rw [List.cons_append, strchrFrom, if_neg (Ne.symm hc.1), if_neg (Ne.symm h0.1), ih hc.2 h0.2]
    simp [Nat.add_assoc, Nat.add_comm 1]

theorem strchr_here (h : At s p (c :: r)) : strchr s p c = .ok (some p) :=
  strchr_at (l := []) h (by simp) (by simp)

/-- Text without the character gives `NULL`. -/
theorem strchr_none (h : At s p (l ++ 0 :: r)) (hc : c ∉ l) (h0 : 0 ∉ l) (hne : c ≠ 0) :
    strchr s p c = .ok none := by
  rw [strchr, h]
  clear h
  induction l generalizing p with
  | nil => simp [strchrFrom, Ne.symm hne]
  | cons d l ih =>
    simp only [List.mem_cons, not_or] at hc h0
    rw [List.cons_append, strchrFrom, if_neg (Ne.symm hc.1), if_neg (Ne.symm h0.1), ih hc.2 h0.2]

/-- Characters that are neither the sought one nor the end are passed. -/
theorem strchr_append (h : At s p (l ++ r)) (hc : c ∉ l) (h0 : 0 ∉ l) :
    strchr s p c = strchr s (p + l.length) c := by
  rw [strchr, strchr, h, h.append]
  clear h
  induction l generalizing p with
  | nil => simp
  | cons d l ih =>
    simp only [List.mem_cons, not_or] at hc h0
    rw [List.cons_append, strchrFrom, if_neg (Ne.symm hc.1), if_neg (Ne.symm h0.1), ih hc.2 h0.2]
    simp [Nat.add_assoc, Nat.add_comm 1]

theorem strchr_step (h : At s p (d :: l)) (hd : d ≠ c) (h0 : d ≠ 0) :
    strchr s p c = strchr s (p + 1) c :=
  strchr_append (l := [d]) h (by simpa using hd.symm) (by simpa using h0.symm)

/-- Some occurrence is found when there is one before the end. -/
theorem strchr_mem (h : At s p (l ++ r)) (hc : c ∈ l) (h0 : 0 ∉ l) :
    ∃ q, strchr s p c = .ok (some q) ∧ p ≤ q ∧ q < p + l.length := by
  obtain ⟨l₁, l₂, rfl, hl₁⟩ := List.eq_append_cons_of_mem hc
  simp only [List.mem_append, not_or] at h0
  rw [List.append_assoc] at h
  refine ⟨_, strchr_at h hl₁ h0.1, Nat.le_add_right _ _, ?_⟩
  simp only [List.length_append, List.length_cons]
  omega

theorem strchr_returns (s : List UInt8) (p : ℕ) (c : UInt8) :
    Returns (strchr s p c) fun r => ∀ q ∈ r, p ≤ q := by
  rw [strchr]
  generalize s.drop p = l
  induction l generalizing p with
  | nil => exact returns_error
  | cons d l ih =>
    unfold strchrFrom
    split_ifs
    · simp
    · simp
    · exact fun r hr q hq => Nat.le_of_succ_le (ih _ r hr q hq)

/-- Terminated text is searched without a fault. -/
theorem strchr_total (h : At s p (l ++ 0 :: r)) (h0 : 0 ∉ l) :
    (c ≠ 0 → c ∉ l ∧ strchr s p c = .ok none) ∨
      ∃ q, c ∈ l ∧ strchr s p c = .ok (some q) ∧ p ≤ q ∧ q < p + l.length := by
  by_cases hc : c ∈ l
  · obtain ⟨q, hq⟩ := strchr_mem h hc h0
    exact .inr ⟨q, hc, hq⟩
  · exact .inl fun hne => ⟨hc, strchr_none h hc h0 hne⟩

theorem skipWhile_returns (f : UInt8 → Bool) (s : List UInt8) (p : ℕ) :
    Returns (skipWhile f s p) (p ≤ ·) := by
  rw [skipWhile]
  generalize s.drop p = l
  induction l generalizing p with
  | nil => exact returns_error
  | cons d l ih =>
    unfold skipFrom
    split_ifs
    · exact fun q hq => Nat.le_of_succ_le (ih _ q hq)
    · exact returns_ok.mpr (Nat.le_refl _)

end Libuo.CStrings
