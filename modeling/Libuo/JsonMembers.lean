import Libuo.JsonValueEnds

/-!
# Members of an object

A flat object made by the encoders, and the lookup of a member by its name. Between
the members the scanner stands on a comma or on the opening brace; inside a member
it meets only the quotes, colons and brackets of the member itself.
-/

namespace Libuo.JsonMembers
open CStrings Json JsonStrings JsonScanner JsonValueEnds

/-- A name and a value. -/
abbrev Member := List UInt8 × Arg

/-- The texts of the members, joined by `", "`. -/
def memberTexts : List Member → List UInt8
  | [] => []
  | [m] => encodeKvp (some m.1) m.2
  | m :: ms => encodeKvp (some m.1) m.2 ++ [chr ',', chr ' '] ++ memberTexts ms

/-- `"{ "`, the members and `" }"`. -/
def objectText (ms : List Member) : List UInt8 :=
  [chr '{', chr ' '] ++ memberTexts ms ++ [chr ' ', chr '}']

/-- A member with the separator behind it. -/
def withComma (m : Member) : List UInt8 := encodeKvp (some m.1) m.2 ++ [chr ',', chr ' ']

/-- The text before the value of a member `name` that follows the members `ms`. -/
def textBefore (ms : List Member) (name : List UInt8) : List UInt8 :=
  [chr '{', chr ' '] ++ ms.flatMap withComma ++ encodeUtf8Cstring (some name) ++
    [chr ':', chr ' ']

/-- C strings contain no NUL. -/
def NulFree : Arg → Prop
  | .utf8 (some v) => 0 ∉ v
  | _ => True

/-- Names that the encoder leaves as they are. -/
def NeedsNoEscaping (name : List UInt8) : Prop := ∀ c ∈ name, encodeByte c = [c]

variable {s r k name : List UInt8} {p n : ℕ} {c : UInt8} {v : Arg}

theorem cstring_eq (h : 0 ∉ k) : cstring k = k := by
  induction k with
  | nil => rfl
  | cons c k ih =>
    simp only [List.mem_cons, not_or] at h
    have hk := ih h.2
    rw [cstring] at hk ⊢
    rw [List.takeWhile_cons, if_pos (by simpa using Ne.symm h.1), hk]

/-- Digits, with or without a minus sign before them, up to a comma or a space. -/
theorem findsEnd_int {sign ds : List UInt8} (hsign : sign = [] ∨ sign = [chr '-'])
    (hne : ds ≠ []) (hds : ∀ c ∈ ds, isdigit c = true) (hc : c = chr ',' ∨ c = chr ' ')
    (h : At s p (sign ++ (ds ++ c :: r))) : FindsEnd s p (some (p + (sign ++ ds).length)) := by
  obtain ⟨hdigit, h0, hdot, hmark, hends⟩ : isdigit c = false ∧ c ≠ 0 ∧ c ≠ chr '.' ∧
      tolower c ≠ chr 'e' ∧ endsNumber c = true := by
    rcases hc with rfl | rfl <;> decide
  obtain ⟨d, l, hd, hfirst⟩ : ∃ d l, sign ++ (ds ++ c :: r) = d :: l ∧
      (sign = [] ∧ isdigit d = true ∨ sign = [chr '-'] ∧ d = chr '-') := by
    rcases hsign with rfl | rfl
    · obtain ⟨d, l, rfl⟩ := List.exists_cons_of_ne_nil hne
      exact ⟨d, l ++ c :: r, rfl, .inl ⟨rfl, hds d (by simp)⟩⟩
    · exact ⟨_, _, rfl, .inr ⟨rfl, rfl⟩⟩
  have hclass : isspace d = false ∧ d ≠ 0 ∧ d ≠ chr '{' ∧ d ≠ chr '[' ∧ d ≠ chr '"' ∧
      d ≠ chr 'n' ∧ d ≠ chr 't' ∧ d ≠ chr 'f' := by
    rcases hfirst with ⟨-, hd⟩ | ⟨-, rfl⟩
    · exact JsonValueEnds.class_of_isdigit hd
    · decide
  have hskip : (if d = chr '-' then p + 1 else p) = p + sign.length := by
    rcases hfirst with ⟨rfl, hdig⟩ | ⟨rfl, rfl⟩
    · exact if_neg fun hminus => absurd (hminus ▸ hdig) (by decide)
    · exact if_pos rfl
  have hend := h.append.append
  have h' : At s p (d :: l) := hd ▸ h
  have hnum : findNumEnd s p = .ok (some (p + (sign ++ ds).length)) := by
    rw [findNumEnd, load_at h', ok_bind]
    simp only [hskip, skipWhile_at h.append hds hdigit, ok_bind, load_at hend, if_neg h0,
      if_neg hdot, skipWhile_stop hend hdigit]
    rw [findNumEnd.numExp, load_at hend, ok_bind, if_neg hmark, numStop_at hend, if_pos hends]
    simp [Nat.add_assoc]
  refine ⟨1, ?_⟩
  rw [findEnd, skipWhile_stop h' hclass.1, ok_bind, load_at h', ok_bind]
  simp [hclass, hnum]

theorem findsEnd_encode (hv : NulFree v) (hc : c = chr ',' ∨ c = chr ' ')
    (h : At s p (encode v ++ c :: r)) : FindsEnd s p (some (p + (encode v).length)) := by
  have hint {sign : List UInt8} (hsign : sign = [] ∨ sign = [chr '-']) (n : ℕ)
      (he : encode v = sign ++ (Nat.toDigits 10 n).map chr) :
      FindsEnd s p (some (p + (encode v).length)) := by
    rw [he] at h ⊢
    exact findsEnd_int hsign (by simp) (isdigit_toDigits n) hc (by simpa using h)
  cases v with
  | bool b =>
    have htext : encode (.bool b) = (JsonGrammar.Value.bool b).text := by cases b <;> rfl
    rw [htext] at h ⊢
    exact literal_findsEnd (.inr ⟨b, rfl⟩) h
  | utf8 u =>
    cases u with
    | none => exact literal_findsEnd (v := .null) (.inl rfl) h
    | some u =>
      have henc : encode (.utf8 (some u)) = encodeUtf8 (some u) := by
        rw [encode, encodeUtf8Cstring, Option.map_some, cstring_eq hv]
      rw [henc] at h ⊢
      have h' : At s p (chr '"' :: u.flatMap encodeByte ++ chr '"' :: (c :: r)) := by
        simpa [encodeUtf8] using h
      refine ⟨1, ?_⟩
      rw [findEnd_quote h', findStrEnd_at (strBody_encode u) h']
      simp [encodeUtf8, Nat.add_assoc]
  | int64 n =>
    by_cases hneg : n.toInt < 0
    · exact hint (.inr rfl) n.toInt.natAbs (by simp [encode, encodeInt64, hneg])
    · exact hint (.inl rfl) n.toInt.natAbs (by simp [encode, encodeInt64, hneg])
  | uint64 n => exact hint (.inl rfl) n.toNat rfl

theorem exists_cons_encode (hv : NulFree v) :
    ∃ c l, encode v = c :: l ∧ isspace c = false ∧ 0 ∉ encode v := by
  have hint {sign : List UInt8} (hsign : sign = [] ∨ sign = [chr '-']) (n : ℕ) :
      ∃ c l, sign ++ (Nat.toDigits 10 n).map chr = c :: l ∧ isspace c = false ∧
        0 ∉ sign ++ (Nat.toDigits 10 n).map chr := by
    have hdigits := isdigit_toDigits n
    have h0 : 0 ∉ (Nat.toDigits 10 n).map chr := fun h => absurd (hdigits 0 h) (by decide)
    rcases hsign with rfl | rfl
    · obtain ⟨c, l, hcl⟩ := List.exists_cons_of_ne_nil
        (show (Nat.toDigits 10 n).map chr ≠ [] by simp)
      exact ⟨c, l, hcl, not_isspace_of_isdigit (hdigits c (by simp [hcl])), h0⟩
    · exact ⟨_, _, rfl, by decide, by simp only [List.mem_append, not_or]; exact ⟨by decide, h0⟩⟩
  cases v with
  | bool b => cases b <;> exact ⟨_, _, rfl, by decide, by decide⟩
  | utf8 u =>
    cases u with
    | none => exact ⟨_, _, rfl, by decide, by decide⟩
    | some u =>
      refine ⟨_, _, rfl, by decide, ?_⟩
      have := (strBody_encode u).zero_not_mem
      rw [encode, encodeUtf8Cstring, Option.map_some, cstring_eq hv, encodeUtf8]
      simpa [chr] using this
  | int64 n =>
    simp only [encode, encodeInt64]
    split_ifs
    · exact hint (.inr rfl) n.toInt.natAbs
    · exact hint (.inl rfl) n.toInt.natAbs
  | uint64 n => exact hint (.inl rfl) n.toNat

theorem flatMap_encodeByte (hname : NeedsNoEscaping name) : name.flatMap encodeByte = name := by
  induction name with
  | nil => rfl
  | cons c name ih =>
    rw [List.flatMap_cons, hname c (by simp), ih fun d hd => hname d (by simp [hd])]
    rfl

theorem encode_eq_iff (hname : NeedsNoEscaping name) :
    k.flatMap encodeByte = name ↔ k = name := by
  constructor
  · intro h
    have hbackslash : chr '\\' ∉ name := fun hm => absurd (hname _ hm) (by decide)
    have hk : NeedsNoEscaping k := by
      intro c hc
      have hsub : ∀ d ∈ encodeByte c, d ∈ name := fun d hd =>
        h ▸ List.mem_flatMap.mpr ⟨c, hc, hd⟩
      unfold encodeByte at hsub ⊢
      split_ifs at hsub ⊢
      · exact absurd (hsub _ (by simp [sprintfUnicode])) hbackslash
      · exact absurd (hsub _ (by simp)) hbackslash
      · rfl
    rw [← h, flatMap_encodeByte hk]
  · rintro rfl
    exact flatMap_encodeByte hname

theorem encode_name (hk : 0 ∉ k) :
    encodeUtf8Cstring (some k) = chr '"' :: k.flatMap encodeByte ++ [chr '"'] := by
  rw [encodeUtf8Cstring, Option.map_some, cstring_eq hk, encodeUtf8]

theorem zero_not_mem_kvp (hk : 0 ∉ k) (hv : NulFree v) : 0 ∉ encodeKvp (some k) v := by
  obtain ⟨-, -, -, -, h0⟩ := exists_cons_encode hv
  have := (strBody_encode k).zero_not_mem
  rw [encodeKvp, encode_name hk]
  simpa [chr, h0] using this

variable {sep l : List UInt8}

/-- What the loop does at the value of a member that does not match. -/
def valueRest (s name : List UInt8) (n p : ℕ) : Scan (Option ℕ) := do
  let some p ← findEnd s n p | return none
  let some _ ← strchr s (p + 1) (chr '}') | return none
  let some p ← strchr s p (chr ',') | return none
  valueLoop s name n p

/-- One turn of the loop: the name has been compared, and the position is the value's. -/
theorem valueLoop_member (hsep : sep = [chr '{', chr ' '] ∨ sep = [chr ',', chr ' '])
    (hname : NeedsNoEscaping name) (hk : 0 ∉ k) (hv : NulFree v) (hl : chr '}' ∈ l) (h0 : 0 ∉ l)
    (h : At s p (sep ++ (encodeKvp (some k) v ++ (l ++ r)))) {q : ℕ}
    (hq : q = p + 2 + (encodeUtf8Cstring (some k)).length + 2) (n : ℕ) :
    valueLoop s name (n + 1) p = if k = name then .ok (some q) else valueRest s name n q := by
  obtain ⟨c, l', hc, hspace, hv0⟩ := exists_cons_encode hv
  have hsep2 : sep.length = 2 ∧ chr '"' ∉ sep ∧ chr '}' ∉ sep ∧ 0 ∉ sep := by
    rcases hsep with rfl | rfl <;> decide
  obtain ⟨d, hload, hd⟩ : ∃ d, load s p = .ok d ∧ d ≠ 0 := by
    rcases hsep with rfl | rfl <;> exact ⟨_, load_at h, by decide⟩
  have hkey : At s (p + 2) (chr '"' :: k.flatMap encodeByte ++ chr '"' ::
      (chr ':' :: ([chr ' '] ++ c :: (l' ++ (l ++ r))))) := by
    have := h.append
    rw [encodeKvp, encode_name hk, hc, hsep2.1] at this
    simpa using this
  have hkeyEnd := findStrEnd_at (strBody_encode k) hkey
  have hcolon := hkey.append.cons
  rw [List.length_cons, show p + 2 + ((k.flatMap encodeByte).length + 1) + 1 =
    p + 2 + (k.flatMap encodeByte).length + 2 by omega] at hcolon
  have hvalue : p + 2 + (k.flatMap encodeByte).length + 2 + 1 + 1 = q := by
    rw [hq, encode_name hk]
    simp
    omega
  have hbrace : ∃ b, strchr s p (chr '}') = .ok (some b) ∧ ¬ b < p + 2 := by
    have hmem : chr '}' ∈ encodeKvp (some k) v ++ l := by simp [hl]
    have hzero : 0 ∉ encodeKvp (some k) v ++ l := by simp [h0, zero_not_mem_kvp hk hv]
    obtain ⟨b, hb, hle, -⟩ := strchr_mem (r := r) (by simpa using h.append) hmem hzero
    rw [← strchr_append h hsep2.2.2.1 hsep2.2.2.2] at hb
    exact ⟨b, hb, by omega⟩
  obtain ⟨b, hb, hle⟩ := hbrace
  have hquote : strchr s p (chr '"') = .ok (some (p + 2)) := by
    have := strchr_at (r := k.flatMap encodeByte ++ chr '"' ::
      (chr ':' :: ([chr ' '] ++ c :: (l' ++ (l ++ r))))) (c := chr '"') (l := sep) (p := p) (s := s)
      (by rw [encodeKvp, encode_name hk, hc] at h; simpa using h) hsep2.2.1 hsep2.2.2.2
    rwa [hsep2.1] at this
  have hskip := skipWhile_at (f := isspace) hcolon.cons (by decide) hspace
  rw [List.length_singleton, hvalue] at hskip
  -- the lengths and the bytes between the quotes decide the match
  have hmatch : (name.length + 2 = p + 2 + (k.flatMap encodeByte).length + 2 - (p + 2) ∧
      (s.drop (p + 2 + 1)).take name.length = name) ↔ k = name := by
    have hdrop : s.drop (p + 2 + 1) = k.flatMap encodeByte ++ chr '"' ::
      (chr ':' :: ([chr ' '] ++ c :: (l' ++ (l ++ r)))) := hkey.cons
    refine Iff.trans ?_ (encode_eq_iff hname)
    rw [hdrop]
    constructor
    · rintro ⟨hlen, htake⟩
      have : name.length = (k.flatMap encodeByte).length := by omega
      rwa [this, List.take_left] at htake
    · intro he
      rw [← he, List.take_left]
      exact ⟨by omega, rfl⟩
  rw [valueLoop, hload, ok_bind, if_neg hd]
  simp only [hb, hquote, ok_bind, if_neg hle, hkeyEnd, strchr_here hcolon, hskip, hmatch]
  rfl

theorem valueRest_comma (name : List UInt8) {q : ℕ} (hv : NulFree v) (hl : chr '}' ∈ l) (h0 : 0 ∉ l)
    (h : At s q (encode v ++ (chr ',' :: chr ' ' :: (l ++ r)))) :
    ∃ n₀, ∀ n ≥ n₀, valueRest s name n q = valueLoop s name n (q + (encode v).length) := by
  obtain ⟨n₀, hfind⟩ := FindsEnd.exists_fuel (findsEnd_encode hv (.inl rfl) h)
  refine ⟨n₀, fun n hn => ?_⟩
  obtain ⟨b, hb, -⟩ := strchr_mem (c := chr '}') (l := chr ' ' :: l) (r := r) h.append.cons
    (by simp [hl]) (by simp [h0, chr])
  rw [valueRest, hfind n hn, ok_bind]
  simp only [hb, ok_bind, strchr_here h.append]

theorem valueRest_last (name : List UInt8) {q : ℕ} (hv : NulFree v)
    (h : At s q (encode v ++ (chr ' ' :: chr '}' :: 0 :: r))) :
    ∃ n₀, ∀ n ≥ n₀, valueRest s name n q = .ok none := by
  obtain ⟨n₀, hfind⟩ := FindsEnd.exists_fuel (findsEnd_encode hv (.inr rfl) h)
  refine ⟨n₀, fun n hn => ?_⟩
  have hcomma : strchr s (q + (encode v).length) (chr ',') = .ok none :=
    strchr_none (l := [chr ' ', chr '}']) h.append (by decide) (by decide) (by decide)
  rw [valueRest, hfind n hn, ok_bind]
  simp only [strchr_here h.append.cons, ok_bind, hcomma]
  rfl

theorem valueLoop_pass (hname : NeedsNoEscaping name) (ms : List Member)
    (hms : ∀ m ∈ ms, 0 ∉ m.1 ∧ NulFree m.2) (hne : ∀ m ∈ ms, m.1 ≠ name)
    (hsep : sep = [chr '{', chr ' '] ∨ sep = [chr ',', chr ' ']) (hl : chr '}' ∈ l) (h0 : 0 ∉ l)
    (h : At s p (sep ++ (ms.flatMap withComma ++ (l ++ r)))) :
    ∃ q sep' n₀, (sep' = [chr '{', chr ' '] ∨ sep' = [chr ',', chr ' ']) ∧
      q = p + (ms.flatMap withComma).length ∧ At s q (sep' ++ (l ++ r)) ∧
      ∀ n ≥ n₀, valueLoop s name (n + ms.length) p = valueLoop s name n q := by
  induction ms generalizing p sep with
  | nil => exact ⟨p, sep, 0, hsep, rfl, h, fun _ _ => rfl⟩
  | cons m ms ih =>
    obtain ⟨k, v⟩ := m
    obtain ⟨hk, hv⟩ := hms (k, v) (by simp)
    have hl' : chr '}' ∈ [chr ',', chr ' '] ++ (ms.flatMap withComma ++ l) := by simp [hl]
    have hzero : 0 ∉ ms.flatMap withComma := by
      simp only [List.mem_flatMap, withComma, List.mem_append, not_exists, not_and, not_or]
      exact fun m hm => ⟨zero_not_mem_kvp (hms m (by simp [hm])).1 (hms m (by simp [hm])).2,
        by decide⟩
    have h' : At s p (sep ++ (encodeKvp (some k) v ++ (([chr ',', chr ' '] ++
        (ms.flatMap withComma ++ l)) ++ r))) := by
      simpa [withComma] using h
    have hstep := valueLoop_member hsep hname hk hv hl' (by simp [hzero, h0, chr]) h' rfl
    have hsep2 : sep.length = 2 := by rcases hsep with rfl | rfl <;> rfl
    have hvalue : At s (p + 2 + (encodeUtf8Cstring (some k)).length + 2) (encode v ++
        (chr ',' :: chr ' ' :: ((ms.flatMap withComma ++ l) ++ r))) := by
      have : At s p ((sep ++ encodeUtf8Cstring (some k) ++ [chr ':', chr ' ']) ++ (encode v ++
          (chr ',' :: chr ' ' :: ((ms.flatMap withComma ++ l) ++ r)))) := by
        simpa [encodeKvp] using h'
      simpa [hsep2, Nat.add_assoc] using this.append
    obtain ⟨n₁, hpass⟩ := valueRest_comma name hv (by simp [hl]) (by simp [hzero, h0])
      hvalue
    obtain ⟨q, sep', n₀, hsep', hq, hat, hrun⟩ := ih (fun m hm => hms m (by simp [hm]))
      (fun m hm => hne m (by simp [hm])) (.inr rfl) (by simpa using hvalue.append)
    refine ⟨q, sep', max n₀ n₁, hsep', ?_, hat, fun n hn => ?_⟩
    · rw [hq]
      simp [withComma, encodeKvp]
      omega
    · rw [List.length_cons, ← Nat.add_assoc, hstep, if_neg (hne (k, v) (by simp)),
        hpass _ (by omega), hrun n (by omega)]

theorem memberTexts_append (ms : List Member) (m : Member) (ms' : List Member) :
    memberTexts (ms ++ m :: ms') = ms.flatMap withComma ++ memberTexts (m :: ms') := by
  induction ms with
  | nil => rfl
  | cons m' ms ih =>
    rw [List.cons_append, List.flatMap_cons, List.append_assoc, ← ih]
    cases ms <;> simp [memberTexts, withComma]

/-- The lookup of a name by `uo_json_find_value`, with enough fuel. -/
def FindsValue (s name : List UInt8) (p : ℕ) (r : Option ℕ) : Prop :=
  ∃ fuel, findValue s name fuel p = .ok r

private theorem findValue_brace (h : At s p (chr '{' :: r)) (n : ℕ) :
    findValue s name n p = valueLoop s name n p := by
  rw [findValue, skipWhile_stop h (by decide), ok_bind, load_at h, ok_bind, if_neg (by simp)]

private theorem memberTexts_cons (m : Member) (ms : List Member)
    (hms : ∀ m ∈ ms, 0 ∉ m.1 ∧ NulFree m.2) :
    ∃ l, memberTexts (m :: ms) = encodeKvp (some m.1) m.2 ++ l ∧ 0 ∉ l ∧
      ∃ c l', (c = chr ',' ∨ c = chr ' ') ∧ l ++ [chr ' ', chr '}'] = c :: l' := by
  cases ms with
  | nil => exact ⟨[], by simp [memberTexts], by simp, _, _, .inr rfl, rfl⟩
  | cons m' ms =>
    have hzero : 0 ∉ memberTexts (m' :: ms) := by
      induction ms generalizing m' with
      | nil => exact zero_not_mem_kvp (hms m' (by simp)).1 (hms m' (by simp)).2
      | cons m'' ms ih =>
        have := ih m'' (fun m hm => hms m (List.mem_cons_of_mem m' hm))
        simp [memberTexts, this, zero_not_mem_kvp (hms m' (by simp)).1 (hms m' (by simp)).2, chr]
    exact ⟨[chr ',', chr ' '] ++ memberTexts (m' :: ms), by simp [memberTexts],
      by simp [hzero, chr], _, _, .inl rfl, rfl⟩

theorem findValue_first {ms₁ ms₂ : List Member} (hname : NeedsNoEscaping name)
    (hms : ∀ m ∈ ms₁ ++ (name, v) :: ms₂, 0 ∉ m.1 ∧ NulFree m.2) (hne : ∀ m ∈ ms₁, m.1 ≠ name)
    (h : At s p (objectText (ms₁ ++ (name, v) :: ms₂) ++ 0 :: r)) :
    FindsValue s name p (some (p + (textBefore ms₁ name).length)) ∧
      FindsEnd s (p + (textBefore ms₁ name).length)
        (some (p + (textBefore ms₁ name).length + (encode v).length)) := by
  obtain ⟨hk, hv⟩ := hms (name, v) (by simp)
  obtain ⟨l, hl, hl0, c, l', hc, hcl⟩ := memberTexts_cons (name, v) ms₂
    (fun m hm => hms m (by simp [hm]))
  have hobj : objectText (ms₁ ++ (name, v) :: ms₂) =
      [chr '{', chr ' '] ++ (ms₁.flatMap withComma ++ (encodeKvp (some name) v ++
        (l ++ [chr ' ', chr '}']))) := by
    rw [objectText, memberTexts_append, hl]
    simp
  have h0 : 0 ∉ l ++ [chr ' ', chr '}'] := by simp [hl0, chr]
  have hat : At s p ([chr '{', chr ' '] ++ (ms₁.flatMap withComma ++
      ((encodeKvp (some name) v ++ (l ++ [chr ' ', chr '}'])) ++ 0 :: r))) := by
    rw [hobj] at h
    simpa using h
  obtain ⟨q, sep, n₀, hsep, hq, hqat, hrun⟩ := valueLoop_pass hname ms₁
    (fun m hm => hms m (by simp [hm])) hne (.inl rfl) (by simp)
    (by simp [zero_not_mem_kvp hk hv, hl0, chr]) hat
  have hpos : q + 2 + (encodeUtf8Cstring (some name)).length + 2 =
      p + (textBefore ms₁ name).length := by
    simp [textBefore, hq]
    omega
  constructor
  · refine ⟨n₀ + 1 + ms₁.length, ?_⟩
    rw [findValue_brace hat, hrun _ (by omega), valueLoop_member hsep hname hk hv (by simp) h0
      (by simpa using hqat) hpos.symm, if_pos rfl]
  · have hvalue : At s p (textBefore ms₁ name ++ (encode v ++ c :: (l' ++ 0 :: r))) := by
      have : At s p (textBefore ms₁ name ++ (encode v ++ ((l ++ [chr ' ', chr '}']) ++
          0 :: r))) := by
        simpa [textBefore, encodeKvp] using hat
      rwa [hcl] at this
    exact findsEnd_encode hv hc hvalue.append

theorem findValue_absent {ms : List Member} (hname : NeedsNoEscaping name)
    (hms : ∀ m ∈ ms, 0 ∉ m.1 ∧ NulFree m.2) (hne : ∀ m ∈ ms, m.1 ≠ name)
    (h : At s p (objectText ms ++ 0 :: r)) : FindsValue s name p none := by
  rcases List.eq_nil_or_concat ms with rfl | ⟨ms₁, ⟨k, v⟩, rfl⟩
  · have h' : At s p ([chr '{', chr ' ', chr ' ', chr '}'] ++ 0 :: r) := h
    have hquote : strchr s p (chr '"') = .ok none :=
      strchr_none h' (by decide) (by decide) (by decide)
    obtain ⟨b, hb, -⟩ := strchr_mem (c := chr '}') h' (by simp) (by decide)
    refine ⟨1, ?_⟩
    rw [findValue_brace h', valueLoop, load_at h', ok_bind, if_neg (by decide)]
    simp only [hb, hquote, ok_bind]
    rfl
  · rw [List.concat_eq_append] at hms hne h
    obtain ⟨hk, hv⟩ := hms (k, v) (by simp)
    have hat : At s p ([chr '{', chr ' '] ++ (ms₁.flatMap withComma ++
        ((encodeKvp (some k) v ++ [chr ' ', chr '}']) ++ 0 :: r))) := by
      rw [objectText, memberTexts_append] at h
      simpa [memberTexts] using h
    obtain ⟨q, sep, n₀, hsep, -, hqat, hrun⟩ := valueLoop_pass hname ms₁
      (fun m hm => hms m (by simp [hm])) (fun m hm => hne m (by simp [hm])) (.inl rfl) (by simp)
      (by simp [zero_not_mem_kvp hk hv, chr]) hat
    have hsep2 : sep.length = 2 := by rcases hsep with rfl | rfl <;> rfl
    have hvalue : At s (q + 2 + (encodeUtf8Cstring (some k)).length + 2) (encode v ++
        (chr ' ' :: chr '}' :: 0 :: r)) := by
      have : At s q ((sep ++ encodeUtf8Cstring (some k) ++ [chr ':', chr ' ']) ++ (encode v ++
          (chr ' ' :: chr '}' :: 0 :: r))) := by
        simpa [encodeKvp] using hqat
      simpa [hsep2, Nat.add_assoc] using this.append
    obtain ⟨n₁, hlast⟩ := valueRest_last name hv hvalue
    refine ⟨max n₀ n₁ + 1 + ms₁.length, ?_⟩
    rw [findValue_brace hat, hrun _ (by omega), valueLoop_member (l := [chr ' ', chr '}'])
      (r := 0 :: r) hsep hname hk hv (by simp) (by decide) (by simpa using hqat) rfl,
      if_neg (hne (k, v) (by simp)), hlast _ (by omega)]

/-- The lookup in the text of an object: the value of the first member of the name, whose
end is then found from there, and `NULL` for any other name. -/
theorem findValue_object (pre post : List UInt8) (ms : List Member)
    (hms : ∀ m ∈ ms, 0 ∉ m.1 ∧ NulFree m.2) (name : List UInt8) (hname : NeedsNoEscaping name) :
    (∀ ms₁ v ms₂, ms = ms₁ ++ (name, v) :: ms₂ → (∀ m ∈ ms₁, m.1 ≠ name) →
      (∃ rest, objectText ms = textBefore ms₁ name ++ encode v ++ rest) ∧
        FindsValue (pre ++ (objectText ms ++ 0 :: post)) name pre.length
          (some (pre.length + (textBefore ms₁ name).length)) ∧
        FindsEnd (pre ++ (objectText ms ++ 0 :: post))
          (pre.length + (textBefore ms₁ name).length)
          (some (pre.length + (textBefore ms₁ name).length + (encode v).length))) ∧
      ((∀ m ∈ ms, m.1 ≠ name) →
        FindsValue (pre ++ (objectText ms ++ 0 :: post)) name pre.length none) := by
  refine ⟨?_, fun hne => findValue_absent hname hms hne (at_append pre _)⟩
  rintro ms₁ v ms₂ rfl hne
  refine ⟨?_, findValue_first hname hms hne (at_append pre _)⟩
  obtain ⟨l, hl, -⟩ := memberTexts_cons (name, v) ms₂ (fun m hm => hms m (by simp [hm]))
  refine ⟨l ++ [chr ' ', chr '}'], ?_⟩
  rw [objectText, memberTexts_append, hl]
  simp [textBefore, encodeKvp]

/-- A member whose name and value are full of what the scanner looks for, a number, and another
member of the same name. -/
def tricky : List Member :=
  [(['}', '"', ','].map chr, .utf8 (some (['"', 'b', '"', ':', '{', '\\'].map chr))),
    ([chr 'b'], .int64 (-12)), ([chr 'c'], .utf8 none), ([chr 'b'], .bool true)]

theorem findValue_object_tricky :
    FindsValue ([] ++ (objectText tricky ++ 0 :: [])) [chr 'b'] 0 (some 28) ∧
      FindsEnd ([] ++ (objectText tricky ++ 0 :: [])) 28 (some 31) ∧
      FindsValue ([] ++ (objectText tricky ++ 0 :: [])) [chr 'a'] 0 none := by
  have hms : ∀ m ∈ tricky, 0 ∉ m.1 ∧ NulFree m.2 := by simp [tricky, NulFree, chr]
  have hname : ∀ name ∈ [[chr 'a'], [chr 'b']], NeedsNoEscaping name := by
    simp [NeedsNoEscaping]
    decide
  obtain ⟨hfound, -⟩ := findValue_object [] [] tricky hms [chr 'b'] (hname _ (by simp))
  obtain ⟨-, hmissing⟩ := findValue_object [] [] tricky hms [chr 'a'] (hname _ (by simp))
  obtain ⟨-, hvalue, hend⟩ := hfound (tricky.take 1) (.int64 (-12)) (tricky.drop 2) rfl (by decide)
  exact ⟨hvalue, hend, hmissing (by decide)⟩

end Libuo.JsonMembers
