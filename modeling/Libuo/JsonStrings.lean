import Libuo.Json
import Mathlib.Data.List.Induction

/-!
# String literals

The scanner decides by the parity of the backslashes before a quote whether the
quote ends the literal; read from the left, a backslash takes the next character
with it. Both agree on every body of a literal, and so on what the encoder writes,
which the decoder reads back.
-/

namespace Libuo.JsonStrings
open CStrings Json

/-- Whether the character behind a text is escaped, read from the left. -/
def endsEscaped (l : List UInt8) : Bool := l.foldl (fun e c => !e && c = chr '\\') false

@[simp] theorem endsEscaped_nil : endsEscaped [] = false := rfl

@[simp] theorem endsEscaped_concat (l : List UInt8) (c : UInt8) :
    endsEscaped (l ++ [c]) = (!endsEscaped l && decide (c = chr '\\')) := by
  simp [endsEscaped]

/-- The body of a string literal: no NUL, and no quote without a backslash of its own. -/
inductive StrBody : List UInt8 → Prop
  | nil : StrBody []
  | plain {c l} : c ≠ 0 → c ≠ chr '"' → c ≠ chr '\\' → StrBody l → StrBody (c :: l)
  | escaped {c l} : c ≠ 0 → StrBody l → StrBody (chr '\\' :: c :: l)

variable {s l l' r : List UInt8} {p n : ℕ} {c : UInt8}

theorem StrBody.append (h : StrBody l) (h' : StrBody l') : StrBody (l ++ l') := by
  induction h with
  | nil => exact h'
  | plain h0 hq hb _ ih => exact .plain h0 hq hb ih
  | escaped h0 _ ih => exact .escaped h0 ih

theorem StrBody.zero_not_mem (h : StrBody l) : 0 ∉ l := by
  induction h with
  | nil => simp
  | plain h0 _ _ _ ih => simp [Ne.symm h0, ih]
  | escaped h0 _ ih => simp [Ne.symm h0, ih, show (0 : UInt8) ≠ chr '\\' by decide]

/-- Counting backslashes backwards from a place behind the opening quote gives the
answer of the reading from the left. -/
theorem escapedLoop_at (h : At s p (chr '"' :: l ++ r)) (e : Bool) :
    escapedLoop s (p + 1 + l.length) e = .ok (e ^^ endsEscaped l) := by
  induction l using List.reverseRec generalizing e r with
  | nil =>
    rw [List.length_nil, Nat.add_zero, escapedLoop, load_at h, ok_bind, if_neg (by decide)]
    simp
  | append_singleton l c ih =>
    have hl : At s p (chr '"' :: l ++ (c :: r)) := by simpa using h
    have hc : load s (p + 1 + l.length) = .ok c := load_at (hl.cons.append)
    rw [List.length_append, List.length_singleton, ← Nat.add_assoc, escapedLoop, hc, ok_bind]
    by_cases hb : c = chr '\\'
    · rw [if_pos hb, ih hl, endsEscaped_concat, decide_eq_true hb]
      cases e <;> simp
    · rw [if_neg hb, endsEscaped_concat, decide_eq_false hb]
      simp

theorem isCharEscaped_at (h : At s p (chr '"' :: l ++ r)) :
    isCharEscaped s (p + 1 + l.length) = .ok (endsEscaped l) := by
  rw [isCharEscaped, escapedLoop_at h, Bool.false_xor]

private theorem findQuote_skip (h : At s p (c :: r)) (hq : c ≠ chr '"') (h0 : c ≠ 0) :
    findQuote s (n + 1) p = findQuote s (n + 1) (p + 1) := by
  rw [findQuote, strchr_step h hq h0, ← findQuote]

/-- A backslash takes the next character with it. -/
theorem endsEscaped_pair (hl : endsEscaped l = false) (c : UInt8) :
    endsEscaped (l ++ [chr '\\', c]) = false := by
  rw [show l ++ [chr '\\', c] = l ++ [chr '\\'] ++ [c] by simp, endsEscaped_concat,
    endsEscaped_concat, hl]
  simp

theorem StrBody.endsEscaped_append (h : StrBody l') (hl : endsEscaped l = false) :
    endsEscaped (l ++ l') = false := by
  induction h generalizing l with
  | nil => rwa [List.append_nil]
  | plain _ _ hb _ ih =>
    rw [List.append_cons]
    exact ih (by simp [hb])
  | @escaped c l' _ _ ih =>
    rw [show l ++ chr '\\' :: c :: l' = l ++ [chr '\\', c] ++ l' by simp]
    exact ih (endsEscaped_pair hl c)

/-- From any place of a literal where a character of its body may begin, the scanner
passes the body. -/
theorem findQuote_pass (hl' : StrBody l') (h : At s p (chr '"' :: l ++ (l' ++ r)))
    (hl : endsEscaped l = false) (hn : l'.length < n) : ∃ m, n ≤ m + l'.length ∧
      findQuote s n (p + 1 + l.length) = findQuote s m (p + 1 + l.length + l'.length) := by
  induction hl' generalizing l n with
  | nil => exact ⟨n, Nat.le_refl _, rfl⟩
  | @plain c l' h0 hq hb _ ih =>
    obtain ⟨n, rfl⟩ := Nat.exists_eq_add_one_of_ne_zero (Nat.ne_zero_of_lt hn)
    have hc : At s _ (c :: (l' ++ r)) := h.cons.append
    simp only [List.length_cons] at hn ⊢
    obtain ⟨m, hm, hpass⟩ := ih (l := l ++ [c]) (n := n + 1) (by simpa using h) (by simp [hb])
      (by omega)
    refine ⟨m, by omega, ?_⟩
    rw [findQuote_skip hc hq h0]
    simpa [Nat.add_assoc, Nat.add_comm, Nat.add_left_comm] using hpass
  | @escaped c l' h0 _ ih =>
    obtain ⟨n, rfl⟩ := Nat.exists_eq_add_one_of_ne_zero (Nat.ne_zero_of_lt hn)
    have hb : At s _ (chr '\\' :: c :: (l' ++ r)) := h.cons.append
    have hpair : At s p (chr '"' :: (l ++ [chr '\\', c]) ++ (l' ++ r)) := by
      simpa using h
    have hesc := endsEscaped_pair hl c
    simp only [List.length_cons] at hn ⊢
    rw [findQuote_skip hb (by decide) (by decide)]
    by_cases hq : c = chr '"'
    · have hmid : At s p (chr '"' :: (l ++ [chr '\\']) ++ (c :: (l' ++ r))) := by
        simpa using h
      have hescaped := isCharEscaped_at hmid
      rw [endsEscaped_concat, hl] at hescaped
      rw [List.length_append, List.length_singleton, ← Nat.add_assoc] at hescaped
      obtain ⟨m, hm, hpass⟩ := ih (n := n) hpair hesc (by omega)
      refine ⟨m, by omega, ?_⟩
      rw [findQuote, strchr_here (hq ▸ hb.cons), ok_bind]
      simp only [hescaped, ok_bind]
      simpa [Nat.add_assoc, Nat.add_comm, Nat.add_left_comm] using hpass
    · obtain ⟨m, hm, hpass⟩ := ih (n := n + 1) hpair hesc (by omega)
      refine ⟨m, by omega, ?_⟩
      rw [findQuote_skip hb.cons hq h0]
      simpa [Nat.add_assoc, Nat.add_comm, Nat.add_left_comm] using hpass

/-- The end of a literal is found, whatever follows it. -/
theorem findStrEnd_at (hl : StrBody l) (h : At s p (chr '"' :: l ++ chr '"' :: r)) :
    findStrEnd s p = .ok (some (p + l.length + 2)) := by
  have hlen : l.length < s.length + 1 := by
    have := congrArg List.length h
    simp at this
    omega
  obtain ⟨m, hm, hpass⟩ := findQuote_pass (l := []) hl h rfl hlen
  obtain ⟨m, rfl⟩ := Nat.exists_eq_add_one_of_ne_zero (show m ≠ 0 by omega)
  have hquote : At s (p + 1 + l.length) (chr '"' :: r) := h.cons.append
  have hescaped := (isCharEscaped_at h).trans
    (congrArg Except.ok (hl.endsEscaped_append (l := []) rfl))
  rw [List.length_nil, Nat.add_zero] at hpass
  rw [findStrEnd, hpass, findQuote, strchr_here hquote, ok_bind]
  simp only [hescaped, ok_bind]
  simp
  omega

/-- Without a quote behind the body no end is found. -/
theorem findStrEnd_none {e : List UInt8} (hl : StrBody l) (hquote : chr '"' ∉ e) (h0 : 0 ∉ e)
    (h : At s p (chr '"' :: (l ++ (e ++ 0 :: r)))) : findStrEnd s p = .ok none := by
  have hlen : l.length < s.length + 1 := by
    have := congrArg List.length h
    simp only [List.length_drop, List.length_cons, List.length_append] at this
    omega
  obtain ⟨m, hm, hpass⟩ := findQuote_pass (l := []) hl h rfl hlen
  obtain ⟨m, rfl⟩ := Nat.exists_eq_add_one_of_ne_zero (show m ≠ 0 by omega)
  rw [List.length_nil, Nat.add_zero] at hpass
  rw [findStrEnd, hpass, findQuote, strchr_none h.cons.append hquote h0 (by decide), ok_bind]
  rfl

/-- A text is the body of a string up to a quote or, without one, up to its end or to a last
backslash. -/
theorem strBody_cases {t : List UInt8} (h : 0 ∉ t) : (∃ b r, StrBody b ∧ t = b ++ chr '"' :: r) ∨
    ∃ b, StrBody b ∧ (t = b ∨ t = b ++ [chr '\\']) := by
  induction hn : t.length using Nat.strongRecOn generalizing t with
  | _ n ih =>
  subst hn
  cases t with
  | nil => exact .inr ⟨[], .nil, .inl rfl⟩
  | cons c t =>
    have hc : c ≠ 0 := fun hc => h (hc ▸ .head _)
    have ht : 0 ∉ t := fun h0 => h (.tail _ h0)
    by_cases hq : c = chr '"'
    · exact .inl ⟨[], t, .nil, by rw [hq]; rfl⟩
    by_cases hb : c = chr '\\'
    · subst hb
      cases t with
      | nil => exact .inr ⟨[], .nil, .inr rfl⟩
      | cons d t =>
        have hd : d ≠ 0 := fun hd => ht (hd ▸ .head _)
        have hlt : t.length < (chr '\\' :: d :: t).length := Nat.lt_succ_of_lt (Nat.lt_succ_self _)
        rcases ih _ hlt (fun h0 => ht (.tail _ h0)) rfl with ⟨b, r, hb, rfl⟩ | ⟨b, hb, hr⟩
        · exact .inl ⟨_, r, .escaped hd hb, rfl⟩
        · refine .inr ⟨_, .escaped hd hb, hr.imp ?_ ?_⟩ <;> rintro rfl <;> rfl
    · rcases ih _ (Nat.lt_succ_self _) ht rfl with ⟨b, r, hb', rfl⟩ | ⟨b, hb', hr⟩
      · exact .inl ⟨_, r, .plain hc hq hb hb', rfl⟩
      · refine .inr ⟨_, .plain hc hq hb hb', hr.imp ?_ ?_⟩ <;> rintro rfl <;> rfl

theorem findEnd_quote (h : At s p (chr '"' :: r)) (n : ℕ) :
    findEnd s (n + 1) p = findStrEnd s p := by
  rw [findEnd, skipWhile_stop h (by decide), ok_bind, load_at h, ok_bind, if_neg (by decide),
    if_neg (by decide), if_neg (by decide), if_pos rfl]

@[simp] theorem hexDigit_ne {k : ℕ} (hk : k < 16) :
    hexDigit k ≠ 0 ∧ hexDigit k ≠ chr '"' ∧ hexDigit k ≠ chr '\\' ∧
      iscntrl (hexDigit k) = false := by
  have : ∀ k < 16, hexDigit k ≠ 0 ∧ hexDigit k ≠ chr '"' ∧ hexDigit k ≠ chr '\\' ∧
      iscntrl (hexDigit k) = false := by decide
  exact this k hk

/-- The characters for one byte do not end a literal and are not control characters. -/
theorem encodeByte_spec (c : UInt8) :
    StrBody (encodeByte c) ∧ ∀ d ∈ encodeByte c, iscntrl d = false := by
  unfold encodeByte
  split_ifs with hc he
  · obtain ⟨h0, hq, hb, hn⟩ := hexDigit_ne (k := c.toNat / 16) (by have := c.toNat_lt; omega)
    obtain ⟨h0', hq', hb', hn'⟩ := hexDigit_ne (k := c.toNat % 16) (by omega)
    have hzero : chr '0' ≠ 0 ∧ chr '0' ≠ chr '"' ∧ chr '0' ≠ chr '\\' := by decide
    refine ⟨.escaped (by decide) (.plain hzero.1 hzero.2.1 hzero.2.2 (.plain hzero.1 hzero.2.1
      hzero.2.2 (.plain h0 hq hb (.plain h0' hq' hb' .nil)))), ?_⟩
    simp only [sprintfUnicode, List.mem_cons, List.not_mem_nil, or_false]
    rintro d (rfl | rfl | rfl | rfl | rfl | rfl)
    · decide
    · decide
    · decide
    · decide
    · exact hn
    · exact hn'
  · have hc' : iscntrl c = false := by simpa using hc
    refine ⟨.escaped (by rintro rfl; exact hc (by decide)) .nil, ?_⟩
    simp only [List.mem_cons, List.not_mem_nil, or_false]
    rintro d (rfl | rfl)
    · decide
    · exact hc'
  · have hc' : iscntrl c = false := by simpa using hc
    simp only [Bool.or_eq_true, decide_eq_true_eq, not_or] at he
    exact ⟨.plain (by rintro rfl; exact hc (by decide)) he.1 he.2 .nil, by simpa using hc'⟩

theorem strBody_encode (src : List UInt8) : StrBody (src.flatMap encodeByte) := by
  induction src with
  | nil => exact .nil
  | cons c src ih => exact (encodeByte_spec c).1.append ih

theorem length_le_encode (src : List UInt8) : src.length ≤ (src.flatMap encodeByte).length := by
  induction src with
  | nil => simp
  | cons c src ih =>
    have : 0 < (encodeByte c).length := by
      unfold encodeByte
      split_ifs <;> simp [sprintfUnicode]
    rw [List.flatMap_cons, List.length_append, List.length_cons]
    omega

theorem hexDigit_value {k : ℕ} (hk : k < 16) :
    isxdigit (hexDigit k) = true ∧ hexValue (hexDigit k) = k := by
  have : ∀ k < 16, isxdigit (hexDigit k) = true ∧ hexValue (hexDigit k) = k := by decide
  exact this k hk

/-- The four digits that `sprintf` writes for a byte are read back by `sscanf`. -/
theorem sscanfHex_sprintf (h : At s p ([chr '0', chr '0', hexDigit (c.toNat / 16),
    hexDigit (c.toNat % 16)] ++ r)) : sscanfHex s p = .ok (some c.toNat) := by
  have h' : At s p (chr '0' :: chr '0' :: hexDigit (c.toNat / 16) ::
    hexDigit (c.toNat % 16) :: r) := h
  obtain ⟨hx, hv⟩ := hexDigit_value (k := c.toNat / 16) (by have := c.toNat_lt; omega)
  obtain ⟨hx', hv'⟩ := hexDigit_value (k := c.toNat % 16) (by omega)
  have h0 := load_at h'
  have h1 := load_at h'.cons
  have h2 := load_at h'.cons.cons
  have h3 := load_at h'.cons.cons.cons
  have hz : isxdigit (chr '0') = true ∧ hexValue (chr '0') = 0 := by decide
  rw [sscanfHex, skipWhile_stop h' (by decide), ok_bind, h0, ok_bind, if_neg (by decide),
    if_neg (by decide), scanUnsigned]
  simp [h0, h1, h2, h3, hx, hv, hx', hv', hz, scanDigits]
  omega

private theorem utf8Append_cntrl (hc : iscntrl c = true) (d : List UInt8) :
    utf8Append (some d) c.toNat = .ok (some (d ++ [c])) := by
  have hlt : c.toNat < 0x80 := by
    simp only [iscntrl, Bool.or_eq_true, decide_eq_true_eq, UInt8.lt_iff_toNat_lt,
      ← UInt8.toNat_inj] at hc
    change c.toNat < 32 ∨ c.toNat = 127 at hc
    omega
  have hmask : c.toNat &&& 0x7F = c.toNat := by
    rw [show (0x7F : ℕ) = 2 ^ 7 - 1 from rfl, Nat.and_two_pow_sub_one_eq_mod, Nat.mod_eq_of_lt hlt]
  rw [utf8Append, if_pos hlt, hmask, putc, UInt8.ofNat_toNat]

/-- The characters written for one byte are read back as this byte. -/
theorem decodeLoop_byte {jsonEnd : ℕ} (h : At s p (encodeByte c ++ r))
    (hend : p + (encodeByte c).length ≤ jsonEnd) (d : List UInt8) :
    decodeLoop s jsonEnd (n + 1) p (some d) =
      decodeLoop s jsonEnd n (p + (encodeByte c).length) (some (d ++ [c])) := by
  unfold encodeByte at h hend ⊢
  split_ifs at h hend ⊢ with hc he
  · have h' : At s p (chr '\\' :: chr 'u' :: ([chr '0', chr '0', hexDigit (c.toNat / 16),
      hexDigit (c.toNat % 16)] ++ r)) := h
    simp only [sprintfUnicode, List.length_cons, List.length_nil] at hend ⊢
    rw [decodeLoop, if_pos (by omega), load_at h', ok_bind, if_pos rfl, if_neg (by omega),
      load_at h'.cons, ok_bind]
    simp only [show shortEscape (chr 'u') = none by decide]
    rw [if_pos trivial, if_neg (by omega), sscanfHex_sprintf h'.cons.cons, ok_bind]
    simp only [utf8Append_cntrl hc, ok_bind]
  · have h' : At s p (chr '\\' :: c :: r) := h
    have hshort : shortEscape c = some c := by
      simp only [Bool.or_eq_true, decide_eq_true_eq] at he
      rcases he with rfl | rfl <;> decide
    simp only [List.length_cons, List.length_nil] at hend ⊢
    rw [decodeLoop, if_pos (by omega), load_at h', ok_bind, if_pos rfl, if_neg (by omega),
      load_at h'.cons, ok_bind]
    simp only [hshort, putc, ok_bind]
  · simp only [Bool.or_eq_true, decide_eq_true_eq, not_or] at he
    simp only [List.length_singleton] at hend ⊢
    rw [decodeLoop, if_pos (by omega), load_at (show At s p (c :: r) from h), ok_bind,
      if_neg he.2]
    simp only [putc, ok_bind]

theorem decodeLoop_body (src : List UInt8) (h : At s p (src.flatMap encodeByte ++ r))
    (hn : src.length < n) (d : List UInt8) :
    decodeLoop s (p + (src.flatMap encodeByte).length) n p (some d) = .ok (some (d ++ src)) := by
  induction src generalizing p n d with
  | nil =>
    obtain ⟨n, rfl⟩ := Nat.exists_eq_add_one_of_ne_zero (Nat.ne_zero_of_lt hn)
    simp [decodeLoop]
  | cons c src ih =>
    obtain ⟨n, rfl⟩ := Nat.exists_eq_add_one_of_ne_zero (Nat.ne_zero_of_lt hn)
    rw [List.flatMap_cons, List.append_assoc] at h
    rw [List.flatMap_cons, List.length_append, decodeLoop_byte h (by omega), ← Nat.add_assoc,
      ih h.append (by simpa using hn)]
    simp

/-- A byte string and the text written for it: the text is quoted and free of control
characters, the scanner finds its end, and the decoder reads the string back. Before
and behind the text the memory may hold any bytes. -/
theorem encodeUtf8_spec (pre src post : List UInt8) :
    (∃ body, encodeUtf8 (some src) = chr '"' :: body ++ [chr '"']) ∧
      (∀ c ∈ encodeUtf8 (some src), iscntrl c = false) ∧
      FindsEnd (pre ++ (encodeUtf8 (some src) ++ post)) pre.length
        (some (pre.length + (encodeUtf8 (some src)).length)) ∧
      decodeUtf8 (pre ++ (encodeUtf8 (some src) ++ post)) pre.length
        (encodeUtf8 (some src)).length = .ok (some src) := by
  have h : At (pre ++ (encodeUtf8 (some src) ++ post)) pre.length
      (chr '"' :: src.flatMap encodeByte ++ chr '"' :: post) := by
    simpa [encodeUtf8] using at_append pre (encodeUtf8 (some src) ++ post)
  have hlen : (encodeUtf8 (some src)).length = (src.flatMap encodeByte).length + 2 := by
    simp [encodeUtf8]
  have hle := length_le_encode src
  refine ⟨⟨_, rfl⟩, ?_, ⟨1, ?_⟩, ?_⟩
  · intro c hc
    simp only [encodeUtf8, List.mem_append, List.mem_cons, List.mem_flatMap, List.not_mem_nil,
      or_false] at hc
    rcases hc with (rfl | ⟨d, -, hd⟩) | rfl
    · decide
    · exact (encodeByte_spec d).2 c hd
    · decide
  · rw [findEnd_quote h, findStrEnd_at (strBody_encode src) h, hlen, Nat.add_assoc]
  · have hbody : At _ _ (src.flatMap encodeByte ++ chr '"' :: post) := h.cons
    have hlast := load_at hbody.append
    have hend : pre.length + (encodeUtf8 (some src)).length - 1 =
        pre.length + 1 + (src.flatMap encodeByte).length := by omega
    rw [decodeUtf8, if_neg (by omega), load_at h, ok_bind, if_neg (by simp)]
    simp only [hend, hlast, ok_bind, ne_eq, not_true_eq_false, if_false]
    rw [decodeLoop_body src hbody (by omega)]
    rfl

end Libuo.JsonStrings
