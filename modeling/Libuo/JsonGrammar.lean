import Libuo.CStrings

/-!
# The grammar of JSON values

A value is kept together with its spelling: the white space around brackets, commas
and colons, the escapes of its strings and the parts of its numbers. Bytes from
`0x80` on stand for the characters outside ASCII.
-/

namespace Libuo.JsonGrammar
open CStrings

def isWs (c : UInt8) : Bool := c = 0x20 || c = 0x09 || c = 0x0A || c = 0x0D

/-- Insignificant white space. -/
abbrev Ws := { l : List UInt8 // ∀ c ∈ l, isWs c = true }

/-- One or more digits. -/
abbrev Digits := { l : List UInt8 // l ≠ [] ∧ ∀ c ∈ l, isdigit c = true }

/-- One unit of the body of a string. -/
inductive StrUnit where
  | plain (c : UInt8) (h : 0x20 ≤ c ∧ c ≠ chr '"' ∧ c ≠ chr '\\')
  | short (c : UInt8) (h : c ∈ ['"', '\\', '/', 'b', 'f', 'n', 'r', 't'].map chr)
  | unicode (d₃ d₂ d₁ d₀ : { c : UInt8 // isxdigit c = true })

def StrUnit.text : StrUnit → List UInt8
  | .plain c _ => [c]
  | .short c _ => [chr '\\', c]
  | .unicode d₃ d₂ d₁ d₀ => [chr '\\', chr 'u', d₃.1, d₂.1, d₁.1, d₀.1]

abbrev Str := List StrUnit

/-- The characters between the quotes. -/
def Str.body (u : Str) : List UInt8 := u.flatMap StrUnit.text

/-- The exponent of a number; a sign is `+` or `-`. -/
structure Exponent where
  mark : { c : UInt8 // c = chr 'e' ∨ c = chr 'E' }
  sign : Option { c : UInt8 // c = chr '+' ∨ c = chr '-' }
  digits : Digits

def Exponent.text (e : Exponent) : List UInt8 :=
  e.mark.1 :: (e.sign.map Subtype.val).toList ++ e.digits.1

structure Number where
  isNegative : Bool
  int : Digits
  leading : int.1.head? = some (chr '0') → int.1 = [chr '0']
  frac : Option Digits
  exp : Option Exponent

def Number.fracText (n : Number) : List UInt8 :=
  match n.frac with
  | none => []
  | some ds => chr '.' :: ds.1

def Number.expText (n : Number) : List UInt8 :=
  match n.exp with
  | none => []
  | some e => e.text

def Number.text (n : Number) : List UInt8 :=
  (if n.isNegative then [chr '-'] else []) ++ n.int.1 ++ n.fracText ++ n.expText

mutual
inductive Value where
  | null
  | bool (b : Bool)
  | str (u : Str)
  | num (n : Number)
  | emptyArr (w : Ws)
  | arr (es : Elems)
  | emptyObj (w : Ws)
  | obj (ms : Members)

/-- The elements of an array that is not empty, each with the white space around it. -/
inductive Elems where
  | last (before : Ws) (v : Value) (after : Ws)
  | more (before : Ws) (v : Value) (after : Ws) (es : Elems)

/-- The members of an object that is not empty. -/
inductive Members where
  | last (before : Ws) (name : Str) (colonBefore colonAfter : Ws) (v : Value) (after : Ws)
  | more (before : Ws) (name : Str) (colonBefore colonAfter : Ws) (v : Value) (after : Ws)
      (ms : Members)
end

/-- The text of a member up to its value. -/
def memberStart (before : Ws) (name : Str) (colonBefore colonAfter : Ws) : List UInt8 :=
  before.1 ++ chr '"' :: name.body ++ chr '"' :: colonBefore.1 ++ chr ':' :: colonAfter.1

mutual
def Value.text : Value → List UInt8
  | .null => ['n', 'u', 'l', 'l'].map chr
  | .bool true => ['t', 'r', 'u', 'e'].map chr
  | .bool false => ['f', 'a', 'l', 's', 'e'].map chr
  | .str u => chr '"' :: u.body ++ [chr '"']
  | .num n => n.text
  | .emptyArr w => chr '[' :: w.1 ++ [chr ']']
  | .arr es => chr '[' :: es.text
  | .emptyObj w => chr '{' :: w.1 ++ [chr '}']
  | .obj ms => chr '{' :: ms.text

/-- The elements with the closing bracket. -/
def Elems.text : Elems → List UInt8
  | .last before v after => before.1 ++ v.text ++ (after.1 ++ [chr ']'])
  | .more before v after es => before.1 ++ v.text ++ (after.1 ++ chr ',' :: es.text)

/-- The members with the closing brace. -/
def Members.text : Members → List UInt8
  | .last before name colonBefore colonAfter v after =>
    memberStart before name colonBefore colonAfter ++ v.text ++ (after.1 ++ [chr '}'])
  | .more before name colonBefore colonAfter v after ms =>
    memberStart before name colonBefore colonAfter ++ v.text ++ (after.1 ++ chr ',' :: ms.text)
end

/-- Text that may stand behind a value: empty, or beginning with white space or with a
character of the value around it. -/
structure Follow (t : List UInt8) : Prop where
  zero_not_mem : 0 ∉ t
  head : ∀ c ∈ t.head?, isWs c = true ∨ c = chr ',' ∨ c = chr ']' ∨ c = chr '}'

variable {c : UInt8} {w : Ws} {t : List UInt8}

theorem isspace_of_isWs (h : isWs c = true) : isspace c = true := by
  simp only [isWs, Bool.or_eq_true, decide_eq_true_eq, or_assoc] at h
  rcases h with rfl | rfl | rfl | rfl <;> decide

theorem Ws.isspace (w : Ws) : ∀ c ∈ w.1, isspace c = true := fun c hc => isspace_of_isWs (w.2 c hc)

/-- White space contains no other character that the scanner looks for. -/
theorem Ws.not_mem (w : Ws) (hc : isWs c = false) : c ∉ w.1 := fun h => by simp [w.2 c h] at hc

@[simp] theorem Ws.zero_not_mem (w : Ws) : 0 ∉ w.1 := w.not_mem (by decide)

theorem Digits.zero_not_mem (ds : Digits) : 0 ∉ ds.1 := fun h => absurd (ds.2.2 0 h) (by decide)

theorem StrUnit.zero_not_mem (u : StrUnit) : 0 ∉ u.text := by
  have hxdigit (d : { c : UInt8 // isxdigit c = true }) : 0 ≠ d.1 := fun h =>
    absurd (h ▸ d.2) (by decide)
  cases u with
  | plain c h =>
    have : c ≠ 0 := by
      rintro rfl
      exact absurd h.1 (by decide)
    simpa [StrUnit.text] using this.symm
  | short c h =>
    have : c ≠ 0 := by
      rintro rfl
      exact absurd h (by decide)
    simpa [StrUnit.text, chr] using this.symm
  | unicode d₃ d₂ d₁ d₀ =>
    simp [StrUnit.text, hxdigit, chr]

theorem Str.zero_not_mem (u : Str) : 0 ∉ u.body := by
  simp only [Str.body, List.mem_flatMap, not_exists, not_and]
  exact fun c _ => c.zero_not_mem

theorem Exponent.zero_not_mem (e : Exponent) : 0 ∉ e.text := by
  have hsign : 0 ∉ (e.sign.map Subtype.val).toList := by
    cases e.sign with
    | none => simp
    | some c =>
      have : 0 ≠ c.1 := fun h => by
        rcases c.2 with h' | h' <;> exact absurd (h.trans h') (by decide)
      simpa using this
  have hmark : 0 ≠ e.mark.1 := fun h => by
    rcases e.mark.2 with h' | h' <;> exact absurd (h.trans h') (by decide)
  simp only [Exponent.text, List.cons_append, List.mem_cons, List.mem_append, not_or]
  exact ⟨hmark, hsign, e.digits.zero_not_mem⟩

theorem Number.zero_not_mem (n : Number) : 0 ∉ n.text := by
  have hfrac : 0 ∉ n.fracText := by
    unfold Number.fracText
    split
    · simp
    · rename_i ds _
      simp [ds.zero_not_mem, chr]
  have hexp : 0 ∉ n.expText := by
    unfold Number.expText
    split
    · simp
    · exact Exponent.zero_not_mem _
  have hneg : 0 ∉ (if n.isNegative then [chr '-'] else []) := by
    split_ifs <;> simp [show (0 : UInt8) ≠ chr '-' by decide]
  simp only [Number.text, List.mem_append, not_or]
  exact ⟨⟨⟨hneg, n.int.zero_not_mem⟩, hfrac⟩, hexp⟩

theorem zero_not_mem_memberStart (before : Ws) (name : Str) (colonBefore colonAfter : Ws) :
    0 ∉ memberStart before name colonBefore colonAfter := by
  simp [memberStart, name.zero_not_mem, chr]

mutual
theorem Value.zero_not_mem : (v : Value) → 0 ∉ v.text
  | .null => by decide
  | .bool true => by decide
  | .bool false => by decide
  | .str u => by simp [Value.text, u.zero_not_mem, chr]
  | .num n => n.zero_not_mem
  | .emptyArr w => by simp [Value.text, chr]
  | .arr es => by simp [Value.text, es.zero_not_mem, chr]
  | .emptyObj w => by simp [Value.text, chr]
  | .obj ms => by simp [Value.text, ms.zero_not_mem, chr]

theorem Elems.zero_not_mem : (es : Elems) → 0 ∉ es.text
  | .last _ v _ => by simp [Elems.text, v.zero_not_mem, chr]
  | .more _ v _ es => by
    simp [Elems.text, v.zero_not_mem, es.zero_not_mem, chr]

theorem Members.zero_not_mem : (ms : Members) → 0 ∉ ms.text
  | .last _ _ _ _ v _ => by
    simp [Members.text, v.zero_not_mem, zero_not_mem_memberStart, chr]
  | .more _ _ _ _ v _ ms => by
    simp [Members.text, v.zero_not_mem, ms.zero_not_mem, zero_not_mem_memberStart, chr]
end

theorem Digits.exists_cons (ds : Digits) : ∃ c l, ds.1 = c :: l ∧ isdigit c = true := by
  obtain ⟨c, l, h⟩ := List.exists_cons_of_ne_nil ds.2.1
  exact ⟨c, l, h, ds.2.2 c (by simp [h])⟩

/-- A number begins with a sign or a digit. -/
theorem Number.exists_cons (n : Number) :
    ∃ c l, n.text = c :: l ∧ (c = chr '-' ∨ isdigit c = true) := by
  obtain ⟨c, l, h, hc⟩ := n.int.exists_cons
  unfold Number.text
  split_ifs with hn
  · exact ⟨_, n.int.1 ++ n.fracText ++ n.expText, by simp, .inl rfl⟩
  · exact ⟨c, l ++ n.fracText ++ n.expText, by simp [h], .inr hc⟩

/-- No value begins with white space or with a closing bracket. -/
theorem Value.exists_cons (v : Value) :
    ∃ c l, v.text = c :: l ∧ isspace c = false ∧ c ≠ chr ']' := by
  cases v with
  | null => exact ⟨_, _, rfl, by decide⟩
  | bool b => cases b <;> exact ⟨_, _, rfl, by decide⟩
  | num n =>
    obtain ⟨c, l, h, hc⟩ := n.exists_cons
    refine ⟨c, l, h, ?_⟩
    rcases hc with rfl | hc
    · decide
    · exact ⟨not_isspace_of_isdigit hc, by rintro rfl; exact absurd hc (by decide)⟩
  | str | emptyArr | arr | emptyObj | obj => exact ⟨_, _, rfl, by decide⟩

end Libuo.JsonGrammar
