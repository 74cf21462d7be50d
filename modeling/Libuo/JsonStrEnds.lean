import Libuo.CText
import Libuo.JsonStrings
import Mathlib.Algebra.Group.Nat.Even
import Mathlib.Order.Bounds.Basic

/-!
# Where a string ends

The scanner takes one quote after the other and counts the backslashes before it. That finds the
first quote with an even number of them, and a single reading from the left finds the same one.
-/

namespace Libuo.JsonStrEnds
open CStrings CText Json JsonStrings

/-- The number of backslashes at the end of a text. -/
def backslashes (l : List UInt8) : ℕ := (l.reverse.takeWhile (· = chr '\\')).length

/-- The quote at an index of the text behind the opening quote is not escaped. -/
def Closes (t : List UInt8) (i : ℕ) : Prop :=
  t[i]? = some (chr '"') ∧ Even (backslashes (t.take i))

/-- The first quote of a text that is read from the left, without the character behind a
backslash. -/
def scan : List UInt8 → Option ℕ
  | [] => none
  | [c] => if c = chr '"' then some 0 else none
  | c :: d :: t =>
    if c = chr '"' then some 0
    else if c = chr '\\' then (scan t).map (2 + ·)
    else (scan (d :: t)).map (1 + ·)

/-- The end of a string is behind the first quote that closes it, which the reading from the left
finds. -/
structure FindsClosing (s : List UInt8) (p : ℕ) (t : List UInt8) : Prop where
  first (i : ℕ) : IsLeast {i | Closes t i} i → findStrEnd s p = .ok (some (p + i + 2))
  none : (∀ i, ¬ Closes t i) → findStrEnd s p = .ok none
  scan : findStrEnd s p = .ok ((scan t).map (p + · + 2))

variable {s l b e t r : List UInt8} {p i : ℕ} {c : UInt8}

theorem backslashes_concat (l : List UInt8) (c : UInt8) :
    backslashes (l ++ [c]) = if c = chr '\\' then backslashes l + 1 else 0 := by
  rw [backslashes, List.reverse_append, List.reverse_singleton, List.singleton_append,
    List.takeWhile_cons]
  split <;> simp_all [backslashes]

/-- The parity of the backslashes is that of the reading from the left. -/
theorem endsEscaped_iff (l : List UInt8) : endsEscaped l = false ↔ Even (backslashes l) := by
  induction l using List.reverseRec with
  | nil => simp [backslashes]
  | append_singleton l c ih =>
    rw [endsEscaped_concat, backslashes_concat]
    by_cases hc : c = chr '\\'
    · rw [if_pos hc, Nat.even_add_one, ← ih]
      simp [hc]
    · simp [hc]

theorem endsEscaped_take (hb : StrBody b) (hl : endsEscaped l = false)
    (hi : b[i]? = some (chr '"')) : endsEscaped (l ++ b.take i) = true := by
  induction hb generalizing l i with
  | nil => cases hi
  | @plain c b h0 hq hslash _ ih =>
    cases i with
    | zero => exact absurd (Option.some.inj hi) hq
    | succ i =>
      rw [List.take_succ_cons, List.append_cons]
      exact ih (by simp [hslash]) hi
  | @escaped c b h0 _ ih =>
    match i with
    | 0 => exact absurd (Option.some.inj hi) (by decide)
    | 1 =>
      change endsEscaped (l ++ [chr '\\']) = true
      rw [endsEscaped_concat, hl]
      rfl
    | i + 2 =>
      have hpair := ih (endsEscaped_pair hl c) (i := i) hi
      rw [List.append_assoc] at hpair
      exact hpair

theorem length_le_of_closes (hb : StrBody b) (h : Closes (b ++ e) i) : b.length ≤ i := by
  by_contra hlt
  rw [Nat.not_le] at hlt
  obtain ⟨hquote, heven⟩ := h
  rw [List.getElem?_append_left hlt] at hquote
  rw [List.take_append_of_le_length hlt.le, ← endsEscaped_iff] at heven
  have hescaped := endsEscaped_take (l := []) hb rfl hquote
  rw [List.nil_append, heven] at hescaped
  cases hescaped

theorem closes_body (hb : StrBody b) (r : List UInt8) : Closes (b ++ chr '"' :: r) b.length := by
  refine ⟨?_, ?_⟩
  · rw [List.getElem?_append_right (Nat.le_refl _), Nat.sub_self]
    rfl
  · rw [List.take_left, ← endsEscaped_iff]
    exact hb.endsEscaped_append (l := []) rfl

theorem scan_plain (hq : c ≠ chr '"') (hb : c ≠ chr '\\') (t : List UInt8) :
    scan (c :: t) = (scan t).map (1 + ·) := by
  cases t with
  | nil => simp [scan, hq]
  | cons d t => rw [scan, if_neg hq, if_neg hb]

theorem scan_escaped (c : UInt8) (t : List UInt8) :
    scan (chr '\\' :: c :: t) = (scan t).map (2 + ·) := by
  rw [scan, if_neg (by decide), if_pos rfl]

theorem scan_quote (t : List UInt8) : scan (chr '"' :: t) = some 0 := by
  cases t <;> rfl

theorem scan_append (hb : StrBody b) (e : List UInt8) :
    scan (b ++ e) = (scan e).map (b.length + ·) := by
  induction hb with
  | nil => simp
  | @plain c b _ hq hslash _ ih =>
    rw [List.cons_append, scan_plain hq hslash, ih, Option.map_map]
    congr 1
    funext i
    simp only [Function.comp_apply, List.length_cons]
    omega
  | @escaped c b _ _ ih =>
    rw [List.cons_append, List.cons_append, scan_escaped, ih, Option.map_map]
    congr 1
    funext i
    simp only [Function.comp_apply, List.length_cons]
    omega

/-- The end of every string is the one that the reading from the left finds. -/
theorem findsClosing (h0 : 0 ∉ t) (h : At s p (chr '"' :: t ++ 0 :: r)) : FindsClosing s p t := by
  obtain ⟨b, r', hb, rfl⟩ | ⟨b, hb, ht⟩ := strBody_cases h0
  · have hend : findStrEnd s p = .ok (some (p + b.length + 2)) :=
      findStrEnd_at (r := r' ++ 0 :: r) hb (by simpa using h)
    have hleast : IsLeast {i | Closes (b ++ chr '"' :: r') i} b.length :=
      ⟨closes_body hb r', fun i hi => length_le_of_closes hb hi⟩
    refine ⟨fun i hi => ?_, fun hno => absurd (closes_body hb r') (hno _), ?_⟩
    · rw [hi.unique hleast]
      exact hend
    · rw [scan_append hb, scan_quote]
      exact hend
  · obtain ⟨e, rfl, hquote, he0, hscan⟩ :
        ∃ e, t = b ++ e ∧ chr '"' ∉ e ∧ 0 ∉ e ∧ scan e = none := by
      obtain rfl | rfl := ht
      · exact ⟨[], (List.append_nil _).symm, by simp, by simp, rfl⟩
      · exact ⟨_, rfl, by decide, by decide, by decide⟩
    have hend : findStrEnd s p = .ok none := findStrEnd_none hb hquote he0 (by simpa using h)
    refine ⟨fun i hi => ?_, fun _ => hend, ?_⟩
    · have hle := length_le_of_closes hb hi.1
      have hi := hi.1.1
      rw [List.getElem?_append_right hle] at hi
      exact absurd (List.mem_of_getElem? hi) hquote
    · rw [scan_append hb, hscan]
      exact hend

/-- The first quote is behind one backslash, the second behind two. -/
theorem findsClosing_escaped : 0 ∉ text "a\\\"b\\\\\"c" ∧
    FindsClosing (text "\"a\\\"b\\\\\"c" ++ [0]) 0 (text "a\\\"b\\\\\"c") :=
  ⟨by decide, findsClosing (r := []) (by decide) rfl⟩

end Libuo.JsonStrEnds
