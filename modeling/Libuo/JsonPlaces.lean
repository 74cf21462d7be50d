import Libuo.JsonValueEnds

/-!
# What is left of a text

The scanner keeps places in a block that holds one terminated text. A place is given here by what
is left of the text there, and each step of the scanner by what it leaves.
-/

namespace Libuo.JsonPlaces
open CStrings Json JsonStrings JsonValueEnds

/-- This much is left of the text in a block. -/
structure Left (s t : List UInt8) : Prop where
  suffix : t ++ [0] <:+ s
  zero_not_mem : 0 ∉ t

/-- The place of what is left. -/
def place (s t : List UInt8) : ℕ := s.length - (t.length + 1)

variable {s t u a b r : List UInt8} {c : UInt8} {f : UInt8 → Bool} {n p : ℕ}

theorem left_text (h : 0 ∉ t) : Left (t ++ [0]) t := ⟨List.suffix_refl _, h⟩

theorem place_text (t : List UInt8) : place (t ++ [0]) t = 0 := by
  rw [place, List.length_append]
  exact Nat.sub_self _

theorem Left.of_suffix (h : Left s t) (hu : u <:+ t) : Left s u := by
  obtain ⟨a, rfl⟩ := hu
  obtain ⟨pre, hpre⟩ := h.suffix
  exact ⟨⟨pre ++ a, by simpa using hpre⟩, fun h0 => h.zero_not_mem (List.mem_append_right a h0)⟩

theorem Left.append (h : Left s (a ++ t)) : Left s t := h.of_suffix (List.suffix_append a t)

theorem Left.cons (h : Left s (c :: t)) : Left s t := h.of_suffix (List.suffix_cons c t)

theorem Left.length_lt (h : Left s t) : t.length < s.length := by
  have := h.suffix.length_le
  rw [List.length_append] at this
  exact this

theorem Left.at (h : Left s t) : At s (place s t) (t ++ [0]) := by
  obtain ⟨pre, rfl⟩ := h.suffix
  have hplace : place (pre ++ (t ++ [0])) t = pre.length := by
    simp [place]
  rw [hplace]
  exact at_append _ _

theorem place_append (h : Left s (a ++ t)) : place s (a ++ t) + a.length = place s t := by
  have := h.length_lt
  rw [List.length_append] at this
  rw [place, place, List.length_append]
  omega

theorem place_cons (h : Left s (c :: t)) : place s (c :: t) + 1 = place s t :=
  place_append (a := [c]) h

theorem place_lt (h : Left s t) : place s t < s.length := by
  have := h.length_lt
  rw [place]
  omega

theorem place_lt_place (ht : Left s t) (hu : Left s u) :
    place s t < place s u ↔ u.length < t.length := by
  have := ht.length_lt
  have := hu.length_lt
  rw [place, place]
  omega

theorem place_nil (h : Left s t) : place s [] + 1 = s.length := by
  have := h.length_lt
  rw [place, List.length_nil]
  omega

theorem load_cons (h : Left s (c :: t)) : load s (place s (c :: t)) = .ok c := load_at h.at

theorem load_nil (h : Left s []) : load s (place s []) = .ok 0 := load_at h.at

theorem skipWhile_place (h : Left s t) (hf : f 0 = false) :
    skipWhile f s (place s t) = .ok (place s (t.dropWhile f)) := by
  induction t with
  | nil => exact skipWhile_stop h.at hf
  | cons c t ih =>
    cases hc : f c with
    | false =>
      rw [List.dropWhile_cons_of_neg (by simp [hc])]
      exact skipWhile_stop h.at hc
    | true =>
      rw [List.dropWhile_cons_of_pos hc, ← ih h.cons, skipWhile, skipWhile, h.at, h.cons.at,
        List.cons_append, skipFrom, if_pos hc, place_cons h]

theorem strchr_place (h : Left s (a ++ c :: t)) (hc : c ∉ a) :
    strchr s (place s (a ++ c :: t)) c = .ok (some (place s (c :: t))) := by
  have hat := h.at
  rw [List.append_assoc] at hat
  rw [strchr_at hat hc fun h0 => h.zero_not_mem (List.mem_append_left _ h0), place_append h]

theorem strchr_absent (h : Left s t) (hc : c ∉ t) (hne : c ≠ 0) :
    strchr s (place s t) c = .ok none := strchr_none h.at hc h.zero_not_mem hne

/-- Behind the end of the text nothing can be searched. -/
theorem strchr_outside (h : s.length ≤ p) : strchr s p c = .error .fault := by
  rw [strchr, List.drop_eq_nil_of_le h]
  rfl

theorem findStrEnd_place (h : Left s (chr '"' :: (b ++ chr '"' :: r))) (hb : StrBody b) :
    findStrEnd s (place s (chr '"' :: (b ++ chr '"' :: r))) = .ok (some (place s r)) := by
  have hat := h.at
  have hplace := place_append (a := chr '"' :: b ++ [chr '"']) (t := r) (s := s) (by simpa using h)
  rw [findStrEnd_at (r := r ++ [0]) hb (by simpa using hat)]
  simp only [List.length_append, List.length_cons, List.length_nil, List.cons_append,
    List.append_assoc, List.nil_append] at hplace
  rw [← hplace]
  congr 2

/-- Without a closing quote no end is found. -/
theorem findStrEnd_cases (h : Left s (chr '"' :: t)) :
    (∃ b r, StrBody b ∧ t = b ++ chr '"' :: r) ∨
      findStrEnd s (place s (chr '"' :: t)) = .ok none := by
  rcases strBody_cases h.cons.zero_not_mem with hb | ⟨b, hb, ht⟩
  · exact .inl hb
  · obtain ⟨e, rfl, hquote, h0⟩ : ∃ e, t = b ++ e ∧ chr '"' ∉ e ∧ 0 ∉ e := by
      rcases ht with rfl | rfl
      · exact ⟨[], (List.append_nil _).symm, by simp, by simp⟩
      · exact ⟨_, rfl, by decide, by decide⟩
    have hat := h.at
    rw [List.cons_append, List.append_assoc] at hat
    exact .inr (findStrEnd_none hb hquote h0 hat)

/-- `if (*p == c) ++p`. -/
def dropChar (c : UInt8) : List UInt8 → List UInt8
  | [] => []
  | d :: t => if d = c then t else d :: t

/-- The last `switch` of `uo_json_find_num_end`. -/
def numStop : List UInt8 → Option (List UInt8)
  | [] => some []
  | c :: t => if c = chr ',' ∨ isspace c then some (c :: t) else none

/-- An exponent has a sign. -/
def numSign : List UInt8 → Option (List UInt8)
  | [] => none
  | sign :: t => if sign = chr '+' ∨ sign = chr '-' then numStop (t.dropWhile isdigit) else none

/-- The exponent. -/
def numExp : List UInt8 → Option (List UInt8)
  | [] => some []
  | c :: t => if tolower c = chr 'e' then numSign t else numStop (c :: t)

/-- What `uo_json_find_num_end` leaves of a text. -/
def numEnd (t : List UInt8) : Option (List UInt8) :=
  let t := (dropChar (chr '-') t).dropWhile isdigit
  if t = [] then some [] else numExp ((dropChar (chr '.') t).dropWhile isdigit)

theorem dropChar_suffix (c : UInt8) (t : List UInt8) : dropChar c t <:+ t := by
  cases t with
  | nil => exact List.suffix_refl _
  | cons d t =>
    rw [dropChar]
    split
    · exact List.suffix_cons d t
    · exact List.suffix_refl _

theorem numStop_suffix (h : numStop t = some r) : r <:+ t := by
  cases t with
  | nil => exact Option.some.inj h ▸ List.suffix_refl _
  | cons c t =>
    rw [numStop] at h
    split at h
    · exact Option.some.inj h ▸ List.suffix_refl _
    · cases h

theorem numSign_suffix (h : numSign t = some r) : r <:+ t := by
  cases t with
  | nil => cases h
  | cons sign t =>
    rw [numSign] at h
    split at h
    · exact (numStop_suffix h).trans ((List.dropWhile_suffix _).trans (List.suffix_cons sign t))
    · cases h

theorem numExp_suffix (h : numExp t = some r) : r <:+ t := by
  cases t with
  | nil => exact Option.some.inj h ▸ List.suffix_refl _
  | cons c t =>
    rw [numExp] at h
    split at h
    · exact (numSign_suffix h).trans (List.suffix_cons c t)
    · exact numStop_suffix h

theorem numEnd_suffix (h : numEnd t = some r) : r <:+ t := by
  rw [numEnd] at h
  split at h
  · exact Option.some.inj h ▸ List.nil_suffix
  · exact (numExp_suffix h).trans ((List.dropWhile_suffix _).trans ((dropChar_suffix _ _).trans
      ((List.dropWhile_suffix _).trans (dropChar_suffix _ _))))

theorem dropChar_place (h : Left s t) (hc : c ≠ 0) : ∃ d, load s (place s t) = .ok d ∧
    (if d = c then place s t + 1 else place s t) = place s (dropChar c t) := by
  cases t with
  | nil => exact ⟨0, load_nil h, if_neg (Ne.symm hc)⟩
  | cons d t =>
    refine ⟨d, load_cons h, ?_⟩
    rw [dropChar]
    split
    · exact place_cons h
    · rfl

theorem numStop_place (h : Left s t) :
    findNumEnd.numStop s (place s t) = .ok ((numStop t).map (place s)) := by
  cases t with
  | nil =>
    rw [findNumEnd.numStop, load_nil h]
    rfl
  | cons c t =>
    have hc : c ≠ 0 := fun hc => h.zero_not_mem (hc ▸ .head _)
    rw [findNumEnd.numStop, load_cons h, numStop, ok_bind]
    by_cases hstop : c = chr ',' ∨ isspace c
    · rw [if_pos (.inr hstop), if_pos hstop]
      rfl
    · rw [if_neg (by tauto), if_neg hstop]
      rfl

theorem numExp_place (h : Left s t) :
    findNumEnd.numExp s (place s t) = .ok ((numExp t).map (place s)) := by
  cases t with
  | nil =>
    rw [findNumEnd.numExp, load_nil h, ok_bind, if_neg (by decide), numStop_place h]
    rfl
  | cons c t =>
    rw [findNumEnd.numExp, load_cons h, ok_bind, numExp]
    by_cases hc : tolower c = chr 'e'
    · rw [if_pos hc, if_pos hc, place_cons h]
      cases t with
      | nil =>
        rw [load_nil h.cons]
        rfl
      | cons sign t =>
        have hdigits : place s (c :: sign :: t) + 2 = place s t := by
          rw [← place_cons h.cons, ← place_cons h]
        rw [load_cons h.cons, ok_bind, hdigits, numSign]
        by_cases hsign : sign = chr '+' ∨ sign = chr '-'
        · rw [if_neg (by tauto), if_pos hsign, skipWhile_place h.cons.cons (by decide), ok_bind,
            numStop_place (h.cons.cons.of_suffix (List.dropWhile_suffix _))]
        · rw [if_pos (by tauto), if_neg hsign]
          rfl
    · rw [if_neg hc, if_neg hc, numStop_place h]

theorem findNumEnd_place (h : Left s t) :
    findNumEnd s (place s t) = .ok ((numEnd t).map (place s)) := by
  obtain ⟨d, hload, hsign⟩ := dropChar_place (c := chr '-') h (by decide)
  have hint := (h.of_suffix (dropChar_suffix (chr '-') t)).of_suffix (List.dropWhile_suffix isdigit)
  rw [findNumEnd, hload, ok_bind]
  simp only [hsign]
  rw [skipWhile_place (h.of_suffix (dropChar_suffix _ t)) (by decide), ok_bind, numEnd]
  cases ht : (dropChar (chr '-') t).dropWhile isdigit with
  | nil =>
    rw [ht] at hint
    rw [load_nil hint]
    rfl
  | cons c u =>
    rw [ht] at hint
    have hc : c ≠ 0 := fun hc => hint.zero_not_mem (hc ▸ .head _)
    obtain ⟨d, hload, hpoint⟩ := dropChar_place (c := chr '.') hint (by decide)
    have hfrac := hint.of_suffix (dropChar_suffix (chr '.') _)
    rw [load_cons hint, ok_bind, if_neg hc]
    rw [load_cons hint] at hload
    rw [← Except.ok.inj hload] at hpoint
    simp only [ok_bind, hpoint]
    rw [skipWhile_place hfrac (by decide), ok_bind,
      numExp_place (hfrac.of_suffix (List.dropWhile_suffix _)), if_neg (List.cons_ne_nil c u)]

end Libuo.JsonPlaces
