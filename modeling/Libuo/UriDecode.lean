import Libuo.CText

/-!
# Percent-encoding

What a URI decodes to, told from its own characters: a dot or a slash of the decoded text is one
of the URI, or a percent-encoded one.
-/

namespace Libuo.UriDecode
open CStrings CText

/-- The value of a hexadecimal digit. -/
def digitValue (a : UInt8) : UInt8 :=
  let a := if a ≥ chr 'a' then a - (chr 'a' - chr 'A') else a
  if a ≥ chr 'A' then a - (chr 'A' - 0xA) else a - chr '0'

/-- Two hexadecimal digits behind a percent sign. -/
def isEscape (c a b : UInt8) : Bool := c = chr '%' && (isxdigit a && isxdigit b)

def escaped (a b : UInt8) : UInt8 := 0x10 * digitValue a + digitValue b

/-- `uo_uri_decode`. Behind the text is a NUL, which is no digit. -/
def uriDecode : List UInt8 → List UInt8
  | [] => []
  | c :: a :: b :: src =>
    if c = chr '+' then chr ' ' :: uriDecode (a :: b :: src)
    else if isEscape c a b then escaped a b :: uriDecode src
    else c :: uriDecode (a :: b :: src)
  | c :: src => (if c = chr '+' then chr ' ' else c) :: uriDecode src

/-- The URI up to its first encoded NUL. -/
def cut : List UInt8 → List UInt8
  | [] => []
  | c :: src => if text "%00" <+: c :: src then [] else c :: cut src

/-- A path has a segment of two dots. -/
def DotDot (path : List UInt8) : Prop := text "/../" <:+: text "/" ++ (path ++ text "/")

def slashes : List (List UInt8) := [text "/", text "%2F", text "%2f"]

def dots : List (List UInt8) := [text ".", text "%2E", text "%2e"]

/-- A URI has a segment of two dots, where slashes and dots may be percent-encoded. -/
def EncodedDotDot (uri : List UInt8) : Prop :=
  ∃ a ∈ slashes, ∃ d ∈ dots, ∃ d' ∈ dots, ∃ b ∈ slashes,
    a ++ (d ++ (d' ++ b)) <:+: text "/" ++ (uri ++ text "/")

instance (path : List UInt8) : Decidable (DotDot path) :=
  inferInstanceAs (Decidable (_ <:+: _))

instance (uri : List UInt8) : Decidable (EncodedDotDot uri) :=
  inferInstanceAs (Decidable (∃ a ∈ slashes, _))

/-- What one character of a decoded text is made from. -/
inductive Encodes : List UInt8 → UInt8 → Prop
  | plain {c : UInt8} (h : c ≠ chr '+') : Encodes [c] c
  | plus : Encodes (text "+") (chr ' ')
  | escape {a b : UInt8} (ha : isxdigit a = true) (hb : isxdigit b = true) :
    Encodes [chr '%', a, b] (escaped a b)

variable {u v pre post t : List UInt8} {c y : UInt8}

theorem isEscape_iff {a b : UInt8} :
    isEscape c a b = true ↔ c = chr '%' ∧ isxdigit a = true ∧ isxdigit b = true := by
  simp [isEscape]

/-- The first character of a decoded text. -/
theorem uriDecode_cons (c : UInt8) (src : List UInt8) :
    ∃ t y post, c :: src = t ++ post ∧ Encodes t y ∧
      uriDecode (c :: src) = y :: uriDecode post := by
  by_cases hplus : c = chr '+'
  · subst hplus
    refine ⟨text "+", chr ' ', src, rfl, .plus, ?_⟩
    rcases src with _ | ⟨a, _ | ⟨b, src⟩⟩ <;> simp [uriDecode]
  · rcases src with _ | ⟨a, _ | ⟨b, src⟩⟩
    · exact ⟨[c], c, [], rfl, .plain hplus, by simp [uriDecode, hplus]⟩
    · exact ⟨[c], c, [a], rfl, .plain hplus, by simp [uriDecode, hplus]⟩
    · by_cases hescape : isEscape c a b = true
      · obtain ⟨rfl, ha, hb⟩ := isEscape_iff.mp hescape
        exact ⟨[chr '%', a, b], escaped a b, src, rfl, .escape ha hb, by
          simp [uriDecode, hplus, hescape]⟩
      · exact ⟨[c], c, a :: b :: src, rfl, .plain hplus, by simp [uriDecode, hplus, hescape]⟩

/-- Without an escape, only a plus sign is changed. -/
theorem uriDecode_plain (h : ∀ a b src, u = a :: b :: src → isEscape c a b = false) :
    uriDecode (c :: u) = (if c = chr '+' then chr ' ' else c) :: uriDecode u := by
  rcases u with _ | ⟨a, _ | ⟨b, src⟩⟩
  · rfl
  · rfl
  · rw [uriDecode, if_neg (Bool.eq_false_iff.mp (h a b src rfl))]
    split <;> rfl

/-- Nothing before a character that is no hexadecimal digit depends on what is behind it. -/
theorem uriDecode_append (hc : isxdigit c = false) (pre post : List UInt8) :
    uriDecode (pre ++ c :: post) = uriDecode pre ++ uriDecode (c :: post) := by
  fun_induction uriDecode pre with
  | case1 => rfl
  | case2 a b src ih =>
    simp only [List.cons_append] at ih ⊢
    rw [uriDecode, if_pos rfl, ih]
  | case3 d a b src hplus hescape ih =>
    simp only [List.cons_append] at ih ⊢
    rw [uriDecode, if_neg hplus, if_pos hescape, ih]
  | case4 d a b src hplus hescape ih =>
    simp only [List.cons_append] at ih ⊢
    rw [uriDecode, if_neg hplus, if_neg hescape, ih]
  | case5 d src hsrc ih =>
    rcases src with _ | ⟨a, _ | ⟨b, src⟩⟩
    · refine uriDecode_plain fun a b src h => ?_
      obtain ⟨rfl, -⟩ := List.cons.inj h
      simp [isEscape, hc]
    · simp only [List.cons_append, List.nil_append] at ih ⊢
      rw [uriDecode_plain, ih]
      intro a' b src h
      obtain ⟨-, htail⟩ := List.cons.inj h
      obtain ⟨rfl, -⟩ := List.cons.inj htail
      simp [isEscape, hc]
    · exact absurd rfl (hsrc a b src)

theorem length_uriDecode_le (uri : List UInt8) : (uriDecode uri).length ≤ uri.length := by
  fun_induction uriDecode uri with
  | case1 => exact Nat.le_refl _
  | case2 a b src ih | case4 c a b src hplus hescape ih | case5 c src hsrc ih =>
    exact Nat.succ_le_succ ih
  | case3 c a b src hplus hescape ih =>
    simp only [List.length_cons]
    omega

/-- Two paths with a slash between them. -/
theorem dotDot_append (l r : List UInt8) :
    DotDot (l ++ chr '/' :: r) ↔ DotDot l ∨ DotDot r := by
  have hleft : text "/" ++ (l ++ chr '/' :: r ++ text "/") =
      text "/" ++ (l ++ text "/") ++ (r ++ text "/") := by
    simp [text]
  have hright : text "/" ++ (l ++ chr '/' :: r ++ text "/") =
      text "/" ++ l ++ (text "/" ++ (r ++ text "/")) := by
    simp [text]
  constructor
  · rintro ⟨pre, post, h⟩
    rw [hright, List.append_assoc] at h
    rcases List.append_eq_append_iff.mp h with ⟨m, hl, hm⟩ | ⟨m, -, hr⟩
    · -- the dots are on the left, up to the slash, or on the right
      have hm : chr '/' :: chr '.' :: chr '.' :: chr '/' :: post =
          m ++ chr '/' :: (r ++ text "/") := hm
      rcases m with _ | ⟨a, _ | ⟨b, _ | ⟨c, _ | ⟨d, m⟩⟩⟩⟩ <;>
        simp only [List.cons_append, List.nil_append, List.cons.injEq] at hm
      · exact .inr ⟨[], post, congrArg (chr '/' :: ·) hm.2⟩
      · exact absurd hm.2.1 (by decide)
      · exact absurd hm.2.2.1 (by decide)
      · obtain ⟨rfl, rfl, rfl, -⟩ := hm
        refine .inl ⟨pre, [], ?_⟩
        rw [List.append_nil, ← List.append_assoc, hl, List.append_assoc]
        rfl
      · obtain ⟨rfl, rfl, rfl, rfl, -⟩ := hm
        refine .inl ⟨pre, m ++ text "/", ?_⟩
        rw [← List.append_assoc (text "/") l, hl]
        simp [text]
    · exact .inr ⟨m, post, by rw [List.append_assoc]; exact hr.symm⟩
  · rintro (h | h)
    · rw [DotDot, hleft]
      exact h.trans (List.prefix_append _ _).isInfix
    · rw [DotDot, hright]
      exact h.trans (List.suffix_append _ _).isInfix

def hexDigits : List UInt8 := text "0123456789ABCDEFabcdef"

theorem mem_hexDigits {a : UInt8} (h : isxdigit a = true) : a ∈ hexDigits := by
  have hall : ∀ n < 256, isxdigit (UInt8.ofNat n) = true → UInt8.ofNat n ∈ hexDigits := by
    decide +kernel
  have := hall a.toNat a.toNat_lt
  rw [UInt8.ofNat_toNat] at this
  exact this h

/-- The only characters that are escaped to a slash, to a dot and to a zero. -/
theorem escaped_cases : ∀ a ∈ hexDigits, ∀ b ∈ hexDigits,
    (escaped a b = chr '/' → [chr '%', a, b] ∈ slashes) ∧
      (escaped a b = chr '.' → [chr '%', a, b] ∈ dots) ∧
      (escaped a b = 0 → [chr '%', a, b] = text "%00") := by
  decide +kernel

theorem Encodes.slash (h : Encodes t y) (hy : y = chr '/') : t ∈ slashes := by
  cases h with
  | plain => exact hy ▸ .head _
  | plus => exact absurd hy (by decide)
  | escape ha hb => exact (escaped_cases _ (mem_hexDigits ha) _ (mem_hexDigits hb)).1 hy

theorem Encodes.dot (h : Encodes t y) (hy : y = chr '.') : t ∈ dots := by
  cases h with
  | plain => exact hy ▸ .head _
  | plus => exact absurd hy (by decide)
  | escape ha hb => exact (escaped_cases _ (mem_hexDigits ha) _ (mem_hexDigits hb)).2.1 hy

theorem Encodes.nul (h : Encodes t y) (hy : y = 0) : t = [0] ∨ t = text "%00" := by
  cases h with
  | plain => exact .inl (hy ▸ rfl)
  | plus => exact absurd hy (by decide)
  | escape ha hb => exact .inr ((escaped_cases _ (mem_hexDigits ha) _ (mem_hexDigits hb)).2.2 hy)

theorem uriDecode_slash (ht : t ∈ slashes) (post : List UInt8) :
    uriDecode (t ++ post) = chr '/' :: uriDecode post := by
  simp only [slashes, List.mem_cons, List.not_mem_nil, or_false] at ht
  rcases ht with rfl | rfl | rfl
  · rcases post with _ | ⟨a, _ | ⟨b, post⟩⟩ <;> rfl
  · rfl
  · rfl

theorem uriDecode_dot (ht : t ∈ dots) (post : List UInt8) :
    uriDecode (t ++ post) = chr '.' :: uriDecode post := by
  simp only [dots, List.mem_cons, List.not_mem_nil, or_false] at ht
  rcases ht with rfl | rfl | rfl
  · rcases post with _ | ⟨a, _ | ⟨b, post⟩⟩ <;> rfl
  · rfl
  · rfl

theorem uriDecode_append_slash (ht : t ∈ slashes) (pre post : List UInt8) :
    uriDecode (pre ++ (t ++ post)) = uriDecode pre ++ chr '/' :: uriDecode post := by
  have hsplit : uriDecode (pre ++ (t ++ post)) = uriDecode pre ++ uriDecode (t ++ post) := by
    simp only [slashes, List.mem_cons, List.not_mem_nil, or_false] at ht
    rcases ht with rfl | rfl | rfl <;> exact uriDecode_append (by decide) pre _
  rw [hsplit, uriDecode_slash ht]

theorem uriDecode_head {r : List UInt8} (h : uriDecode u = y :: r) :
    ∃ t post, u = t ++ post ∧ Encodes t y ∧ uriDecode post = r := by
  cases u with
  | nil => exact nomatch h
  | cons c src =>
    obtain ⟨t, y', post, hu, ht, hdecode⟩ := uriDecode_cons c src
    obtain ⟨rfl, rfl⟩ := List.cons.inj (hdecode.symm.trans h)
    exact ⟨t, post, hu, ht, rfl⟩

/-- Every character of a decoded text comes from a place of its own. -/
theorem uriDecode_split {l r : List UInt8} (h : uriDecode u = l ++ y :: r) :
    ∃ pre t post, u = pre ++ (t ++ post) ∧ Encodes t y ∧ uriDecode post = r := by
  induction l generalizing u with
  | nil =>
    obtain ⟨t, post, hu, ht, hr⟩ := uriDecode_head h
    exact ⟨[], t, post, hu, ht, hr⟩
  | cons x l ih =>
    obtain ⟨t, post, hu, -, hpost⟩ := uriDecode_head h
    obtain ⟨pre', t', post', rfl, ht', hr⟩ := ih hpost
    exact ⟨t ++ pre', t', post', by rw [hu, List.append_assoc], ht', hr⟩

/-- A decoded text has a segment of two dots if and only if the URI has an encoded one. -/
theorem dotDot_uriDecode (uri : List UInt8) : DotDot (uriDecode uri) ↔ EncodedDotDot uri := by
  have hwrap : uriDecode (text "/" ++ (uri ++ text "/")) =
      text "/" ++ (uriDecode uri ++ text "/") := by
    rw [uriDecode_slash (.head _)]
    exact congrArg (chr '/' :: ·) (uriDecode_append_slash (.head _) uri [])
  rw [DotDot, EncodedDotDot, ← hwrap]
  constructor
  · rintro ⟨l, r, h⟩
    rw [List.append_assoc] at h
    obtain ⟨pre, a, post, hu, ha, h⟩ := uriDecode_split h.symm
    obtain ⟨d, post, rfl, hd, h⟩ := uriDecode_head h
    obtain ⟨d', post, rfl, hd', h⟩ := uriDecode_head h
    obtain ⟨b, post, rfl, hb, -⟩ := uriDecode_head h
    refine ⟨a, ha.slash rfl, d, hd.dot rfl, d', hd'.dot rfl, b, hb.slash rfl, pre, post, ?_⟩
    rw [hu]
    simp only [List.append_assoc]
  · rintro ⟨a, ha, d, hd, d', hd', b, hb, pre, post, h⟩
    refine ⟨uriDecode pre, uriDecode post, ?_⟩
    rw [← h]
    simp only [List.append_assoc]
    rw [uriDecode_append_slash ha, uriDecode_dot hd, uriDecode_dot hd', uriDecode_slash hb]
    rfl

theorem cut_prefix (uri : List UInt8) : cut uri <+: uri := by
  induction uri with
  | nil => exact List.prefix_refl _
  | cons c src ih =>
    rw [cut]
    split
    · exact List.nil_prefix
    · exact List.cons_prefix_cons.mpr ⟨rfl, ih⟩

theorem cut_eq_self (uri : List UInt8) : cut uri = uri ↔ ¬ text "%00" <:+: uri := by
  induction uri with
  | nil => exact iff_of_true rfl (by decide)
  | cons c src ih =>
    rw [cut, List.infix_cons_iff]
    split
    · rename_i h
      exact iff_of_false (List.cons_ne_nil c src).symm (not_not.mpr (.inl h))
    · rename_i h
      simp [ih, h]

theorem cut_cons (h : c ≠ chr '%') (src : List UInt8) : cut (c :: src) = c :: cut src := by
  rw [cut, if_neg]
  intro hpre
  exact h (List.cons_prefix_cons.mp hpre).1.symm

theorem cut_plain (h : ∀ a b src, u = a :: b :: src → isEscape c a b = false) :
    cut (c :: u) = c :: cut u ∧
      uriDecode (c :: cut u) = (if c = chr '+' then chr ' ' else c) :: uriDecode (cut u) := by
  constructor
  · rw [cut, if_neg]
    rintro ⟨src, hsrc⟩
    obtain ⟨rfl, hu⟩ := List.cons.inj hsrc
    exact absurd (h _ _ src hu.symm) (by decide)
  · refine uriDecode_plain fun a b src hcut => ?_
    obtain ⟨rest, hrest⟩ := cut_prefix u
    exact h a b (src ++ rest) (by rw [← hrest, hcut]; rfl)

theorem cstr_cons (h : c ≠ 0) (s : List UInt8) : cstr (c :: s) = c :: cstr s := by
  simp [cstr, h]

theorem uriDecode_nul (post : List UInt8) : uriDecode (text "%00" ++ post) = 0 :: uriDecode post :=
  rfl

theorem zero_mem_uriDecode (h : 0 ∉ u) : 0 ∈ uriDecode u ↔ text "%00" <:+: u := by
  constructor
  · intro h0
    obtain ⟨l, r, hlr⟩ := List.append_of_mem h0
    obtain ⟨pre, t, post, rfl, ht, -⟩ := uriDecode_split hlr
    rcases ht.nul rfl with rfl | rfl
    · exact absurd (by simp) h
    · exact ⟨pre, post, List.append_assoc _ _ _⟩
  · rintro ⟨pre, post, rfl⟩
    have hsplit : uriDecode (pre ++ (text "%00" ++ post)) = _ :=
      uriDecode_append (by decide) pre _
    rw [List.append_assoc, hsplit]
    exact List.mem_append_right _ (.head _)

/-- The decoded text, as a C string, is what the URI decodes to up to its first encoded NUL. -/
theorem cstr_uriDecode (h : 0 ∉ u) : cstr (uriDecode u) = uriDecode (cut u) := by
  have hplain {c : UInt8} {u : List UInt8} (hc : 0 ∉ c :: u)
      (hno : ∀ a b src, u = a :: b :: src → isEscape c a b = false)
      (ih : cstr (uriDecode u) = uriDecode (cut u)) :
      cstr ((if c = chr '+' then chr ' ' else c) :: uriDecode u) = uriDecode (cut (c :: u)) := by
    obtain ⟨hcut, hdecode⟩ := cut_plain hno
    rw [hcut, hdecode, cstr_cons, ih]
    split
    · decide
    · exact fun h0 => hc (h0 ▸ .head _)
  fun_induction uriDecode u with
  | case1 => rfl
  | case2 a b src ih =>
    have hno : ∀ a' b' src', a :: b :: src = a' :: b' :: src' → isEscape (chr '+') a' b' = false :=
      fun _ _ _ _ => rfl
    exact hplain h hno (ih (List.not_mem_of_not_mem_cons h))
  | case3 c a b src hplus hescape ih =>
    obtain ⟨rfl, ha, hb⟩ := isEscape_iff.mp hescape
    have hdigit : ∀ d, isxdigit d = true → d ≠ chr '%' := by
      rintro d hd rfl
      exact absurd hd (by decide)
    rw [cut]
    split
    · rename_i hnul
      obtain ⟨rfl, rfl⟩ : chr '0' = a ∧ chr '0' = b := by
        simpa [text] using hnul
      rfl
    · rename_i hnul
      have hne : escaped a b ≠ 0 := by
        intro h0
        rcases (Encodes.escape ha hb).nul h0 with hz | hz
        · exact nomatch hz
        · exact hnul (hz ▸ List.prefix_append [chr '%', a, b] src)
      have hrest : 0 ∉ src := fun hm => h (by simp [hm])
      rw [cut_cons (hdigit a ha), cut_cons (hdigit b hb), cstr_cons hne, ih hrest, uriDecode,
        if_neg hplus, if_pos hescape]
  | case4 c a b src hplus hescape ih =>
    have hno : ∀ a' b' src', a :: b :: src = a' :: b' :: src' → isEscape c a' b' = false := by
      intro a' b' src' hsrc
      obtain ⟨ha, htail⟩ := List.cons.inj hsrc
      obtain ⟨hb, -⟩ := List.cons.inj htail
      rw [← ha, ← hb]
      simpa using hescape
    have := hplain h hno (ih (List.not_mem_of_not_mem_cons h))
    rwa [if_neg hplus] at this
  | case5 c src hsrc ih =>
    exact hplain h (fun a b src' hs => (hsrc a b src' hs).elim)
      (ih (List.not_mem_of_not_mem_cons h))

end Libuo.UriDecode
