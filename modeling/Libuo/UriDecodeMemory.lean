import Libuo.CMemory
import Libuo.UriDecode

/-!
# Percent-decoding in memory

The loop of `uo_uri_decode` goes on by one byte or by three until it is at the end that it has been
given, and looks up to two bytes ahead. A NUL behind the text keeps it inside; without one, an
escape may start before the end and get beyond it.
-/

namespace Libuo.UriDecodeMemory
open CMemory CStrings CText UriDecode

/-- The next byte of the decoded text, and the number of bytes that it is made from. -/
def next (m : Memory) (src : ℕ) : Option (UInt8 × ℕ) := do
  let c ← m src
  if c = chr '+' then some (chr ' ', 1)
  else if c = chr '%' then do
    let a ← m (src + 1)
    if a = 0 then some (c, 1)
    else do
      let b ← m (src + 2)
      if b ≠ 0 ∧ isxdigit a ∧ isxdigit b then some (escaped a b, 3) else some (c, 1)
  else some (c, 1)

/-- `while (src != src_end)`, for at most `fuel` tests: the memory, and both pointers. -/
def decodeLoop (srcEnd : ℕ) : ℕ → Memory → ℕ → ℕ → Option (Memory × ℕ × ℕ)
  | 0, _, _, _ => none
  | fuel + 1, m, dst, src =>
    if src = srcEnd then some (m, dst, src)
    else do
      let (byte, n) ← next m src
      let m ← store m dst byte
      decodeLoop srcEnd fuel m (dst + 1) (src + n)

/-- `uo_uri_decode`: the memory afterwards and the end of the decoded text. -/
def decode (fuel : ℕ) (m : Memory) (dst src srcLen : ℕ) : Option (Memory × ℕ) :=
  (decodeLoop (src + srcLen) fuel m dst src).map fun r => (r.1, r.2.1)

/-- The value of a hexadecimal digit. -/
def hexDigit (c : UInt8) : Option ℕ :=
  if chr '0' ≤ c ∧ c ≤ chr '9' then some (c.toNat - (chr '0').toNat)
  else if chr 'a' ≤ c ∧ c ≤ chr 'f' then some (c.toNat - (chr 'a').toNat + 10)
  else if chr 'A' ≤ c ∧ c ≤ chr 'F' then some (c.toNat - (chr 'A').toNat + 10)
  else none

/-- The byte of an escape, without its percent sign. -/
def hexByte (a b : UInt8) : Option UInt8 := do
  let high ← hexDigit a
  let low ← hexDigit b
  some (UInt8.ofNat (16 * high + low))

/-- What a text decodes to: a plus sign is a space, a percent sign with two hexadecimal digits is
the byte with that number, and every other character is itself. -/
def decoding : List UInt8 → List UInt8
  | [] => []
  | c :: a :: b :: s =>
    if c = chr '%' then
      match hexByte a b with
      | some byte => byte :: decoding s
      | none => c :: decoding (a :: b :: s)
    else (if c = chr '+' then chr ' ' else c) :: decoding (a :: b :: s)
  | c :: s => (if c = chr '+' then chr ' ' else c) :: decoding s

/-- A text behind a percent sign decides whether it starts an escape. -/
def Decides : List UInt8 → Prop
  | [] => False
  | a :: l => a = 0 ∨ ∃ b ∈ l.head?, ¬ (isxdigit a = true ∧ isxdigit b = true)

/-- None of the last two bytes of a text is a percent sign that starts an escape together with the
bytes behind the text, or that bytes which are not there would decide about. -/
def Clear : List UInt8 → List UInt8 → Prop
  | [], _ => True
  | c :: x, rest => (c = chr '%' → x.length < 2 → Decides (x ++ rest)) ∧ Clear x rest

/-- The loop decodes exactly the first `srcLen` bytes of a buffer, wherever the buffer lies and
whatever else is mapped. The destination may be the buffer itself. -/
def EndsInside (buf : List UInt8) (srcLen : ℕ) : Prop :=
  ∀ (m : Memory) (dst src : ℕ), Holds m src buf →
    Mapped m dst (decoding (buf.take srcLen)).length → (dst ≤ src ∨ src + buf.length ≤ dst) →
    ∃ fuel, decodeLoop (src + srcLen) fuel m dst src =
      some (write m dst (decoding (buf.take srcLen)),
        dst + (decoding (buf.take srcLen)).length, src + srcLen)

/-- A string is decoded to the reference without a read behind its NUL, and no more is written than
that. -/
structure DecodesString (s : List UInt8) : Prop where
  runs (m : Memory) (dst src : ℕ) : Holds m src (s ++ [0]) → Mapped m dst (decoding s).length →
    (dst ≤ src ∨ src + (s.length + 1) ≤ dst) →
    ∃ fuel, decode fuel m dst src s.length =
      some (write m dst (decoding s), dst + (decoding s).length)
  length_le : (decoding s).length ≤ s.length

variable {m : Memory} {dst src stop n : ℕ} {c : UInt8} {o x rest s : List UInt8}

theorem hexByte_eq (a b : UInt8) :
    hexByte a b = if isxdigit a && isxdigit b then some (escaped a b) else none := by
  have hdigit : ∀ n < 256, hexDigit (UInt8.ofNat n) =
      if isxdigit (UInt8.ofNat n) then some (digitValue (UInt8.ofNat n)).toNat else none := by
    decide +kernel
  have hdigit (c : UInt8) :
      hexDigit c = if isxdigit c then some (digitValue c).toNat else none := by
    have := hdigit c.toNat c.toNat_lt
    rwa [UInt8.ofNat_toNat] at this
  rw [hexByte, hdigit, hdigit]
  cases isxdigit a <;> cases isxdigit b <;> simp [escaped]

theorem uriDecode_eq (s : List UInt8) : uriDecode s = decoding s := by
  fun_induction uriDecode s with
  | case1 => rfl
  | case2 a b src ih =>
    rw [decoding, if_neg (by decide), if_pos rfl, ih]
  | case3 c a b src hplus hescape ih =>
    obtain ⟨rfl, ha, hb⟩ := isEscape_iff.mp hescape
    rw [decoding, if_pos rfl, hexByte_eq, ha, hb, ih]
    rfl
  | case4 c a b src hplus hescape ih =>
    rw [decoding, ih, hexByte_eq]
    by_cases hc : c = chr '%'
    · have hhex : (isxdigit a && isxdigit b) = false := by simpa [isEscape, hc] using hescape
      rw [if_pos hc, hhex]
      rfl
    · rw [if_neg hc, if_neg hplus]
  | case5 c src hsrc ih =>
    rw [decoding, ih]
    exact fun a b s h => hsrc a b s h

theorem length_decoding_le (s : List UInt8) : (decoding s).length ≤ s.length := by
  rw [← uriDecode_eq]
  exact length_uriDecode_le s

theorem next_plain (hc : m src = some c)
    (h : c = chr '%' → m (src + 1) = some 0 ∨ ∃ a b, m (src + 1) = some a ∧
      m (src + 2) = some b ∧ ¬ (isxdigit a = true ∧ isxdigit b = true)) :
    next m src = some (if c = chr '+' then chr ' ' else c, 1) := by
  rw [next, Option.bind_eq_bind, hc, Option.bind_some]
  by_cases hplus : c = chr '+'
  · rw [if_pos hplus, if_pos hplus]
  · rw [if_neg hplus, if_neg hplus]
    by_cases hpercent : c = chr '%'
    · rw [if_pos hpercent]
      obtain ha | ⟨a, b, ha, hb, hhex⟩ := h hpercent
      · simp [ha]
      · by_cases h0 : a = 0
        · simp [ha, h0]
        · simp only [ha, hb, Option.bind_some, if_neg h0]
          rw [if_neg fun hand => hhex hand.2]
    · rw [if_neg hpercent]

theorem next_escape {a b : UInt8} (hc : m src = some (chr '%')) (ha : m (src + 1) = some a)
    (hb : m (src + 2) = some b) (hxa : isxdigit a = true) (hxb : isxdigit b = true) :
    next m src = some (escaped a b, 3) := by
  have hzero {d : UInt8} (hd : isxdigit d = true) : d ≠ 0 := by
    rintro rfl
    exact absurd hd (by decide)
  rw [next, Option.bind_eq_bind, hc, Option.bind_some, if_neg (by decide), if_pos rfl]
  simp only [ha, hb, Option.bind_some, if_neg (hzero hxa)]
  rw [if_pos ⟨hzero hxb, hxa, hxb⟩]

theorem next_eq (h : c = chr '%' → x.length < 2 → Decides (x ++ rest))
    (hs : Holds m src (c :: x ++ rest)) :
    ∃ t y post, c :: x = t ++ post ∧ t ≠ [] ∧ (∀ d ∈ t.tail, isxdigit d = true) ∧
      next m src = some (y, t.length) ∧ decoding (c :: x) = y :: decoding post := by
  have hc : m src = some c := hs.1
  have hplain (hno : ∀ a b l, x = a :: b :: l → isEscape c a b = false)
      (hahead : c = chr '%' → m (src + 1) = some 0 ∨ ∃ a b, m (src + 1) = some a ∧
        m (src + 2) = some b ∧ ¬ (isxdigit a = true ∧ isxdigit b = true)) :
      ∃ t y post, c :: x = t ++ post ∧ t ≠ [] ∧ (∀ d ∈ t.tail, isxdigit d = true) ∧
        next m src = some (y, t.length) ∧ decoding (c :: x) = y :: decoding post := by
    refine ⟨[c], _, x, rfl, List.cons_ne_nil _ _, by simp, next_plain hc hahead, ?_⟩
    rw [← uriDecode_eq, ← uriDecode_eq, uriDecode_plain hno]
  rcases x with _ | ⟨a, _ | ⟨b, x⟩⟩
  · refine hplain (fun _ _ _ hx => by cases hx) fun hpercent => ?_
    have hdecides := h hpercent (by simp)
    rcases rest with _ | ⟨a, rest⟩
    · exact hdecides.elim
    · have ha : m (src + 1) = some a := hs.2.1
      rcases hdecides with rfl | ⟨b, hb, hhex⟩
      · exact .inl ha
      · obtain ⟨rest, rfl⟩ : ∃ l, rest = b :: l := List.head?_eq_some_iff.mp hb
        exact .inr ⟨a, b, ha, hs.2.2.1, hhex⟩
  · refine hplain (fun _ _ _ hx => by cases hx) fun hpercent => ?_
    have ha : m (src + 1) = some a := hs.2.1
    rcases h hpercent (by simp) with rfl | ⟨b, hb, hhex⟩
    · exact .inl ha
    · obtain ⟨rest, rfl⟩ : ∃ l, rest = b :: l := List.head?_eq_some_iff.mp hb
      exact .inr ⟨a, b, ha, hs.2.2.1, hhex⟩
  · have ha : m (src + 1) = some a := hs.2.1
    have hb : m (src + 2) = some b := hs.2.2.1
    by_cases hescape : isEscape c a b = true
    · obtain ⟨rfl, hxa, hxb⟩ := isEscape_iff.mp hescape
      refine ⟨[chr '%', a, b], escaped a b, x, rfl, List.cons_ne_nil _ _, ?_,
        next_escape hc ha hb hxa hxb, ?_⟩
      · simp [hxa, hxb]
      · rw [← uriDecode_eq, ← uriDecode_eq, uriDecode, if_neg (by decide), if_pos hescape]
    · have hno : isEscape c a b = false := by simpa using hescape
      refine hplain (fun a' b' l hx => ?_) fun hpercent => ?_
      · simp only [List.cons.injEq] at hx
        rw [← hx.1, ← hx.2.1]
        exact hno
      · refine .inr ⟨a, b, ha, hb, fun hhex => hescape ?_⟩
        exact isEscape_iff.mpr ⟨hpercent, hhex⟩

theorem decodeLoop_next {y : UInt8} {k : ℕ} (h : src ≠ stop) (hnext : next m src = some (y, k))
    (n dst : ℕ) : decodeLoop stop (n + 1) m dst src =
      (store m dst y).bind fun m => decodeLoop stop n m (dst + 1) (src + k) := by
  rw [decodeLoop, if_neg h, hnext]
  rfl

theorem Clear.append {t : List UInt8} (h : Clear (t ++ x) rest) : Clear x rest := by
  induction t with
  | nil => exact h
  | cons c t ih => exact ih h.2

theorem Clear.digits {t : List UInt8} (h : Clear x rest) (ht : ∀ d ∈ t, isxdigit d = true) :
    Clear (t ++ x) rest := by
  induction t with
  | nil => exact h
  | cons d t ih =>
    refine ⟨fun hd => ?_, ih fun e he => ht e (.tail _ he)⟩
    have hdigit := ht d (.head _)
    rw [hd] at hdigit
    exact absurd hdigit (by decide)

/-- The loop from a place in the text on: what has been decoded before stands below the destination
pointer. -/
theorem decodeLoop_eq (hclear : Clear x rest) (hs : Holds m src (x ++ rest))
    (hm : Mapped m (dst + o.length) (decoding x).length)
    (ho : dst + o.length ≤ src ∨ src + (x ++ rest).length ≤ dst) (hn : x.length < n) :
    decodeLoop (src + x.length) n (write m dst o) (dst + o.length) src =
      some (write m dst (o ++ decoding x), dst + o.length + (decoding x).length,
        src + x.length) := by
  induction n generalizing x src o with
  | zero => exact absurd hn (Nat.not_lt_zero _)
  | succ n ih =>
    cases x with
    | nil => simp [decodeLoop, decoding]
    | cons c x =>
      obtain ⟨t, y, post, hx, hne, -, hnext, hdecoding⟩ := next_eq hclear.1 (hs.apart ho)
      have hpos := List.length_pos_of_ne_nil hne
      have hlen : (c :: x).length = t.length + post.length := by rw [hx, List.length_append]
      rw [hx] at hclear
      rw [hx, List.append_assoc, holds_append] at hs
      rw [hx, List.append_assoc, List.length_append] at ho
      rw [hdecoding, List.length_cons] at hm
      have hstore := store_write_above (m := m) (p := dst) (l := o) (b := y)
        (by simpa using hm 0 (by omega))
      have hrest := ih (o := o ++ [y]) hclear.append hs.2
        (fun i hi => by
          rw [List.length_append, List.length_singleton, ← Nat.add_assoc, Nat.add_assoc,
            Nat.add_comm 1]
          exact hm _ (by omega))
        (by rw [List.length_append, List.length_singleton]; omega) (by omega)
      rw [decodeLoop_next (by omega) hnext, hstore, Option.bind_some]
      rw [List.length_append, List.length_singleton, ← Nat.add_assoc] at hrest
      rw [hlen, ← Nat.add_assoc, hrest, hdecoding, List.append_assoc, List.length_cons]
      simp only [List.cons_append, List.nil_append]
      congr 3
      omega

theorem clear_zero (s : List UInt8) : Clear s [0] := by
  induction s with
  | nil => trivial
  | cons c s ih =>
    refine ⟨fun _ hlen => ?_, ih⟩
    match s, hlen with
    | [], _ => exact .inl rfl
    | [a], _ => exact .inr ⟨0, rfl, fun h => absurd h.2 (by decide)⟩

/-- Every string is decoded to the reference. -/
theorem decodesString (s : List UInt8) : DecodesString s where
  runs m dst src hs hm ho := by
    have hloop := decodeLoop_eq (o := []) (n := s.length + 1) (clear_zero s) hs hm
      (by simpa [Nat.add_assoc] using ho) (Nat.lt_succ_self _)
    simp only [write_nil, List.length_nil, Nat.add_zero, List.nil_append] at hloop
    exact ⟨s.length + 1, by rw [decode, hloop]; rfl⟩
  length_le := length_decoding_le s

theorem decodeLoop_behind (n : ℕ) (h : stop < src) : decodeLoop stop n m dst src = none := by
  induction n generalizing m dst src with
  | zero => rfl
  | succ n ih =>
    cases hnext : next m src with
    | none =>
      rw [decodeLoop, if_neg (by omega), hnext]
      rfl
    | some r =>
      rw [decodeLoop_next (y := r.1) (k := r.2) (by omega) hnext]
      cases store m dst r.1 with
      | none => rfl
      | some m' => exact ih (by omega)

theorem Holds.store_below {m' : Memory} {p q : ℕ} {y : UInt8} {l : List UInt8}
    (h : Holds m q l) (hstore : store m p y = some m') (hq : p < q) : Holds m' q l :=
  h.congr fun i _ => store_above hstore (by omega)

theorem next_undecided (h : ¬ Decides (x ++ rest)) (hs : Holds m src (chr '%' :: x ++ rest))
    (hend : m (src + (chr '%' :: x ++ rest).length) = none) :
    next m src = none ∨ ∃ y, next m src = some (y, 3) := by
  obtain ⟨l, hl⟩ : ∃ l, l = x ++ rest := ⟨_, rfl⟩
  rw [List.cons_append, ← hl] at hs hend
  rw [← hl] at h
  have hc : m src = some (chr '%') := hs.1
  have hstart : next m src = (m (src + 1)).bind fun a => if a = 0 then some (chr '%', 1)
      else (m (src + 2)).bind fun b =>
        if b ≠ 0 ∧ isxdigit a ∧ isxdigit b then some (escaped a b, 3) else some (chr '%', 1) := by
    rw [next, Option.bind_eq_bind, hc, Option.bind_some, if_neg (by decide), if_pos rfl]
  match l with
  | [] =>
    have ha : m (src + 1) = none := hend
    exact .inl (by rw [hstart, ha, Option.bind_none])
  | [a] =>
    have ha : m (src + 1) = some a := hs.2.1
    have hb : m (src + 2) = none := hend
    have h0 : a ≠ 0 := fun h0 => h (.inl h0)
    exact .inl (by rw [hstart, ha, Option.bind_some, if_neg h0, hb, Option.bind_none])
  | a :: b :: l =>
    have ha : m (src + 1) = some a := hs.2.1
    have hb : m (src + 2) = some b := hs.2.2.1
    have hhex : isxdigit a = true ∧ isxdigit b = true := by
      by_contra hno
      exact h (.inr ⟨b, rfl, hno⟩)
    exact .inr ⟨_, next_escape hc ha hb hhex.1 hhex.2⟩

theorem decodeLoop_never (hclear : ¬ Clear x rest) (hs : Holds m src (x ++ rest))
    (hend : m (src + (x ++ rest).length) = none) (ho : dst ≤ src) (n : ℕ) :
    decodeLoop (src + x.length) n m dst src = none := by
  induction n generalizing m dst src x with
  | zero => rfl
  | succ n ih =>
    cases x with
    | nil => exact absurd trivial hclear
    | cons c x =>
      have hne : src ≠ src + (c :: x).length := by
        rw [List.length_cons]
        omega
      by_cases hhead : c = chr '%' → x.length < 2 → Decides (x ++ rest)
      · obtain ⟨t, y, post, hx, ht, hhex, hnext, -⟩ := next_eq hhead hs
        have hpos := List.length_pos_of_ne_nil ht
        rw [decodeLoop_next hne hnext]
        cases hstore : store m dst y with
        | none => rfl
        | some m' =>
          have hlen : (c :: x).length = t.length + post.length := by rw [hx, List.length_append]
          have hpost : ¬ Clear post rest := by
            intro hpost
            obtain ⟨d, t, rfl⟩ := List.exists_cons_of_ne_nil ht
            obtain ⟨-, rfl⟩ := List.cons.inj hx
            exact hclear ⟨hhead, hpost.digits hhex⟩
          have hbehind : Holds m (src + t.length) (post ++ rest) := by
            rw [hx, List.append_assoc, holds_append] at hs
            exact hs.2
          have hend' : m (src + t.length + (post ++ rest).length) = none := by
            rw [← hend, hx, List.append_assoc, Nat.add_assoc, ← List.length_append]
          rw [Option.bind_some, hlen, ← Nat.add_assoc]
          refine ih hpost (Holds.store_below hbehind hstore (by omega)) ?_ (by omega)
          rw [store_above hstore (by omega)]
          exact hend'
      · obtain ⟨rfl, hlen, hdecides⟩ : c = chr '%' ∧ x.length < 2 ∧ ¬ Decides (x ++ rest) := by
          simpa only [Classical.not_imp] using hhead
        rcases next_undecided hdecides hs hend with hnext | ⟨y, hnext⟩
        · rw [decodeLoop, if_neg hne, hnext]
          rfl
        · rw [decodeLoop_next hne hnext]
          cases store m dst y with
          | none => rfl
          | some m' =>
            refine decodeLoop_behind n ?_
            simp only [List.length_cons]
            omega

/-- The loop keeps to the given bytes of a buffer if and only if their end is clear. -/
theorem endsInside_iff {buf : List UInt8} {srcLen : ℕ} (h : srcLen ≤ buf.length) :
    EndsInside buf srcLen ↔ Clear (buf.take srcLen) (buf.drop srcLen) := by
  have hbuf := List.take_append_drop srcLen buf
  have hlen : (buf.take srcLen).length = srcLen := by rw [List.length_take, Nat.min_eq_left h]
  constructor
  · intro hends
    by_contra hclear
    have hmapped : Mapped (write (fun _ => none) 0 buf) 0 (decoding (buf.take srcLen)).length :=
      (holds_write _ _ _).mapped.mono ((length_decoding_le _).trans (by rw [hlen]; exact h))
    obtain ⟨fuel, hrun⟩ := hends _ 0 0 (holds_write (fun _ => none) 0 buf) hmapped
      (.inl (Nat.le_refl _))
    have hend : write (fun _ => none) 0 buf (0 + buf.length) = none :=
      write_apply_of_ge (Nat.le_refl _)
    have hholds := holds_write (fun _ => none) 0 buf
    rw [← hbuf] at hholds hend
    have hnever := decodeLoop_never hclear hholds hend (Nat.le_refl 0) fuel
    rw [hlen, hbuf, hrun] at hnever
    exact Option.some_ne_none _ hnever
  · intro hclear m dst src hs hm ho
    rw [← hbuf] at hs ho
    have hloop := decodeLoop_eq (o := []) (n := srcLen + 1) hclear hs hm ho (by omega)
    rw [write_nil, List.length_nil, Nat.add_zero, List.nil_append, hlen] at hloop
    exact ⟨srcLen + 1, hloop⟩

theorem endsInside_iff_escape : 3 ≤ (text "%41").length ∧
    (EndsInside (text "%41") 3 ↔ Clear ((text "%41").take 3) ((text "%41").drop 3)) :=
  ⟨by decide, endsInside_iff (by decide)⟩

/-- The percent sign is at the end, and the digits are behind it. -/
theorem not_endsInside_percent : ¬ EndsInside (text "%41") 1 := by
  intro h
  have hmapped : Mapped (write (fun _ => none) 0 (text "%41")) 0 1 :=
    (holds_write _ _ _).mapped.mono (by decide)
  obtain ⟨fuel, hrun⟩ := h _ 0 0 (holds_write (fun _ => none) 0 _) hmapped (.inl (Nat.le_refl _))
  cases fuel with
  | zero => cases hrun
  | succ fuel =>
    rw [decodeLoop_next (by decide) (next_escape (by rfl) (by rfl) (by rfl) (by decide)
      (by decide))] at hrun
    obtain ⟨m', hstore, hrun⟩ := Option.bind_eq_some_iff.mp hrun
    rw [decodeLoop_behind fuel (by omega)] at hrun
    cases hrun

end Libuo.UriDecodeMemory
