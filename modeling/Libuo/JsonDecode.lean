import Libuo.JsonStrings

/-!
# Decoding step by step

The decoder of string literals once more, with all that it stores, also when it stops at a null
pointer. It reads its source in steps: a character, a short escape, or the field of a `\u` escape,
of which `sscanf` may make something else than four digits. The closing quote ends each of them.
-/

namespace Libuo.JsonDecode
open CStrings JsonStrings
open Json hiding putc utf8Append decodeLoop decodeUtf8

/-- Why there is no result. -/
inductive Fault where
  | nullPointer
  | stop (e : Stop)
  deriving DecidableEq

/-- What has been stored, with the offsets in the destination, and the result. -/
structure Run (α : Type) where
  stores : List (ℕ × UInt8)
  result : Except Fault α

/-- What follows is only reached with a result. -/
def Run.andThen {α β : Type} (x : Run α) (f : α → Run β) : Run β :=
  match x.result with
  | .ok a => ⟨x.stores ++ (f a).stores, (f a).result⟩
  | .error e => ⟨x.stores, .error e⟩

instance : Monad Run where
  pure a := ⟨[], .ok a⟩
  bind := Run.andThen

/-- A computation that only reads. -/
def read {α : Type} (x : Scan α) : Run α := ⟨[], x.mapError .stop⟩

/-- `*dst++ = c`; the destination may be `NULL`. -/
def putc (dst : Option ℕ) (c : UInt8) : Run (Option ℕ) :=
  match dst with
  | some p => ⟨[(p, c)], .ok (some (p + 1))⟩
  | none => ⟨[], .error .nullPointer⟩

def utf8Append (dst : Option ℕ) (codepoint : ℕ) : Run (Option ℕ) :=
  if codepoint < 0x80 then
    putc dst (UInt8.ofNat (codepoint &&& 0x7F))
  else if codepoint < 0x800 then do
    let dst ← putc dst (UInt8.ofNat (0xC0 ||| codepoint >>> 6))
    putc dst (UInt8.ofNat (0x80 ||| codepoint &&& 0x3F))
  else if codepoint < 0x10000 then do
    let dst ← putc dst (UInt8.ofNat (0xE0 ||| codepoint >>> 12))
    let dst ← putc dst (UInt8.ofNat (0x80 ||| codepoint >>> 6 &&& 0x3F))
    putc dst (UInt8.ofNat (0x80 ||| codepoint &&& 0x3F))
  else if codepoint < 0x110000 then do
    let dst ← putc dst (UInt8.ofNat (0xF0 ||| codepoint >>> 18))
    let dst ← putc dst (UInt8.ofNat (0x80 ||| codepoint >>> 12 &&& 0x3F))
    let dst ← putc dst (UInt8.ofNat (0x80 ||| codepoint >>> 6 &&& 0x3F))
    putc dst (UInt8.ofNat (0x80 ||| codepoint &&& 0x3F))
  else pure none

/-- `while (src < json_end)`. -/
def decodeLoop (s : List UInt8) (jsonEnd : ℕ) : ℕ → ℕ → Option ℕ → Run (Option ℕ)
  | 0, _, _ => read (.error .fuel)
  | fuel + 1, src, dst =>
    if src < jsonEnd then do
      let c ← read (load s src)
      if c = chr '\\' then
        if src + 1 ≥ jsonEnd then pure none
        else do
          let e ← read (load s (src + 1))
          match shortEscape e with
          | some b => do decodeLoop s jsonEnd fuel (src + 2) (← putc dst b)
          | none =>
            if e = chr 'u' then
              if src + 2 + 4 > jsonEnd then pure none
              else do
                match ← read (sscanfHex s (src + 2)) with
                | none => pure none
                | some codepoint => do
                  decodeLoop s jsonEnd fuel (src + 6) (← utf8Append dst codepoint)
            else pure none
      else do decodeLoop s jsonEnd fuel (src + 1) (← putc dst c)
    else pure dst

/-- `uo_json_decode_utf8`: the place in the destination behind what has been stored, or `NULL`. -/
def decodeUtf8 (s : List UInt8) (src srcLen : ℕ) : Run (Option ℕ) := do
  if srcLen < 2 then pure none
  else if (← read (load s src)) ≠ chr '"' then pure none
  else
    let jsonEnd := src + srcLen - 1
    if (← read (load s jsonEnd)) ≠ chr '"' then pure none
    else decodeLoop s jsonEnd srcLen (src + 1) (some 0)

variable {α β : Type} {s t u r ds : List UInt8} {p n e v : ℕ} {c : UInt8} {dst : Option ℕ}

@[simp] theorem read_ok_bind (a : α) (f : α → Run β) : (read (.ok a) >>= f) = f a := rfl

@[simp] theorem read_error_bind (e : Stop) (f : α → Run β) :
    (read (.error e : Scan α) >>= f) = read (.error e) := rfl

/-- What `uo_utf8_append` stores, if it stores anything. -/
def utf8Bytes (codepoint : ℕ) : Option (List UInt8) :=
  if codepoint < 0x80 then
    some [UInt8.ofNat (codepoint &&& 0x7F)]
  else if codepoint < 0x800 then
    some [UInt8.ofNat (0xC0 ||| codepoint >>> 6), UInt8.ofNat (0x80 ||| codepoint &&& 0x3F)]
  else if codepoint < 0x10000 then
    some [UInt8.ofNat (0xE0 ||| codepoint >>> 12), UInt8.ofNat (0x80 ||| codepoint >>> 6 &&& 0x3F),
      UInt8.ofNat (0x80 ||| codepoint &&& 0x3F)]
  else if codepoint < 0x110000 then
    some [UInt8.ofNat (0xF0 ||| codepoint >>> 18), UInt8.ofNat (0x80 ||| codepoint >>> 12 &&& 0x3F),
      UInt8.ofNat (0x80 ||| codepoint >>> 6 &&& 0x3F), UInt8.ofNat (0x80 ||| codepoint &&& 0x3F)]
  else none

/-- Bytes stored one after the other. -/
def storesAt (p : ℕ) : List UInt8 → List (ℕ × UInt8)
  | [] => []
  | c :: bs => (p, c) :: storesAt (p + 1) bs

theorem utf8Append_some (p v : ℕ) : utf8Append (some p) v =
    match utf8Bytes v with
    | some bs => ⟨storesAt p bs, .ok (some (p + bs.length))⟩
    | none => pure none := by
  rw [utf8Append, utf8Bytes]
  split_ifs <;> rfl

theorem utf8Append_none (v : ℕ) : utf8Append none v =
    match utf8Bytes v with
    | some _ => ⟨[], .error .nullPointer⟩
    | none => pure none := by
  rw [utf8Append, utf8Bytes]
  split_ifs <;> rfl

theorem utf8Append_eq (o : Option (List UInt8)) (v : ℕ) : Json.utf8Append o v =
    match utf8Bytes v, o with
    | some bs, some d => .ok (some (d ++ bs))
    | some _, none => .error .fault
    | none, _ => .ok none := by
  rw [Json.utf8Append, utf8Bytes]
  cases o with
  | none => split_ifs <;> rfl
  | some d => split_ifs <;> simp [Json.putc]

/-- What is next in the source, with the place behind it. -/
inductive Next (P : Type) where
  | stop
  | reject
  | put (c : UInt8) (rest : P)
  | append (codepoint : ℕ) (rest : P)

/-- What the loop reads in one turn. -/
def readNext (s : List UInt8) (jsonEnd src : ℕ) : Scan (Next ℕ) :=
  if src < jsonEnd then do
    let c ← load s src
    if c = chr '\\' then
      if src + 1 ≥ jsonEnd then pure .reject
      else do
        let e ← load s (src + 1)
        match shortEscape e with
        | some b => pure (.put b (src + 2))
        | none =>
          if e = chr 'u' then
            if src + 2 + 4 > jsonEnd then pure .reject
            else do
              match ← sscanfHex s (src + 2) with
              | none => pure .reject
              | some codepoint => pure (.append codepoint (src + 6))
          else pure .reject
    else pure (.put c (src + 1))
  else pure .stop

/-- What the loop does then. -/
def turn (loop : ℕ → Option ℕ → Run (Option ℕ)) (dst : Option ℕ) : Next ℕ → Run (Option ℕ)
  | .stop => pure dst
  | .reject => pure none
  | .put c src => putc dst c >>= loop src
  | .append v src => utf8Append dst v >>= loop src

theorem decodeLoop_succ (s : List UInt8) (e n p : ℕ) (dst : Option ℕ) :
    decodeLoop s e (n + 1) p dst = read (readNext s e p) >>= turn (decodeLoop s e n) dst := by
  rw [decodeLoop, readNext]
  by_cases hlt : p < e
  · rw [if_pos hlt, if_pos hlt]
    cases load s p with
    | error e => rfl
    | ok c =>
      rw [read_ok_bind, ok_bind]
      by_cases hc : c = chr '\\'
      · rw [if_pos hc, if_pos hc]
        by_cases hend : p + 1 ≥ e
        · rw [if_pos hend, if_pos hend]
          rfl
        · rw [if_neg hend, if_neg hend]
          cases load s (p + 1) with
          | error e => rfl
          | ok d =>
            rw [read_ok_bind, ok_bind]
            cases shortEscape d with
            | some b => rfl
            | none =>
              simp only
              by_cases hu : d = chr 'u'
              · rw [if_pos hu, if_pos hu]
                by_cases hfield : p + 2 + 4 > e
                · rw [if_pos hfield, if_pos hfield]
                  rfl
                · rw [if_neg hfield, if_neg hfield]
                  cases sscanfHex s (p + 2) with
                  | error e => rfl
                  | ok o => cases o <;> rfl
              · rw [if_neg hu, if_neg hu]
                rfl
      · rw [if_neg hc, if_neg hc]
        rfl
  · rw [if_neg hlt, if_neg hlt]
    rfl

theorem jsonDecodeLoop_succ (s : List UInt8) (e n p : ℕ) (o : Option (List UInt8)) :
    Json.decodeLoop s e (n + 1) p o = readNext s e p >>= fun next =>
      match next with
      | .stop => .ok o
      | .reject => .ok none
      | .put c src => Json.putc o c >>= Json.decodeLoop s e n src
      | .append v src => Json.utf8Append o v >>= Json.decodeLoop s e n src := by
  rw [Json.decodeLoop, readNext]
  by_cases hlt : p < e
  · rw [if_pos hlt, if_pos hlt]
    cases load s p with
    | error e => rfl
    | ok c =>
      rw [ok_bind, ok_bind]
      by_cases hc : c = chr '\\'
      · rw [if_pos hc, if_pos hc]
        by_cases hend : p + 1 ≥ e
        · rw [if_pos hend, if_pos hend]
          rfl
        · rw [if_neg hend, if_neg hend]
          cases load s (p + 1) with
          | error e => rfl
          | ok d =>
            rw [ok_bind, ok_bind]
            cases shortEscape d with
            | some b => rfl
            | none =>
              simp only
              by_cases hu : d = chr 'u'
              · rw [if_pos hu, if_pos hu]
                by_cases hfield : p + 2 + 4 > e
                · rw [if_pos hfield, if_pos hfield]
                  rfl
                · rw [if_neg hfield, if_neg hfield]
                  cases sscanfHex s (p + 2) with
                  | error e => rfl
                  | ok o => cases o <;> rfl
              · rw [if_neg hu, if_neg hu]
                rfl
      · rw [if_neg hc, if_neg hc]
        rfl
  · rw [if_neg hlt, if_neg hlt]
    rfl

/-- The bytes behind `d` that are returned. -/
def returned (d : List UInt8) (x : Run (Option ℕ)) : Scan (Option (List UInt8)) :=
  match x.result with
  | .ok o => .ok (o.map fun _ => d ++ x.stores.map Prod.snd)
  | .error .nullPointer => .error .fault
  | .error (.stop e) => .error e

theorem map_storesAt (p : ℕ) (bs : List UInt8) : (storesAt p bs).map Prod.snd = bs := by
  induction bs generalizing p with
  | nil => rfl
  | cons c bs ih => rw [storesAt, List.map_cons, ih]

theorem returned_stores (d bs : List UInt8) (p : ℕ) (dst : Option ℕ)
    (loop : Option ℕ → Run (Option ℕ)) :
    returned d ((⟨storesAt p bs, .ok dst⟩ : Run (Option ℕ)) >>= loop) =
      returned (d ++ bs) (loop dst) := by
  change returned d ⟨storesAt p bs ++ (loop dst).stores, (loop dst).result⟩ = _
  rw [returned, returned, List.map_append, map_storesAt, List.append_assoc]

theorem decodeLoop_null (s : List UInt8) (e n p : ℕ) (d : List UInt8) :
    returned d (decodeLoop s e n p none) = returned [] (decodeLoop s e n p none) := by
  induction n generalizing p with
  | zero => rfl
  | succ n ih =>
    rw [decodeLoop_succ]
    cases readNext s e p with
    | error e => rfl
    | ok next =>
      cases next with
      | stop => rfl
      | reject => rfl
      | put c q => rfl
      | append v q =>
        rw [read_ok_bind, turn, utf8Append_none]
        cases utf8Bytes v with
        | some bs => rfl
        | none => exact ih q

theorem jsonDecodeLoop_eq (s : List UInt8) (e n p : ℕ) (o : Option (List UInt8)) :
    Json.decodeLoop s e n p o =
      returned (o.getD []) (decodeLoop s e n p (o.map List.length)) := by
  induction n generalizing p o with
  | zero => rfl
  | succ n ih =>
    rw [jsonDecodeLoop_succ, decodeLoop_succ]
    cases readNext s e p with
    | error e => rfl
    | ok next =>
      rw [ok_bind, read_ok_bind]
      cases next with
      | stop => cases o <;> simp [turn, returned, pure]
      | reject => rfl
      | put c q =>
        cases o with
        | none => rfl
        | some d =>
          have hlen : (some (d ++ [c])).map List.length = some (d.length + 1) := by simp
          change Json.decodeLoop s e n q (some (d ++ [c])) = _
          rw [ih, hlen]
          exact (returned_stores d [c] d.length _ _).symm
      | append v q =>
        simp only [turn]
        rw [utf8Append_eq]
        cases o with
        | none =>
          rw [Option.map_none, utf8Append_none]
          cases utf8Bytes v with
          | none => exact ih q none
          | some bs => rfl
        | some d =>
          rw [Option.map_some, utf8Append_some]
          cases utf8Bytes v with
          | none => exact (ih q none).trans (decodeLoop_null s e n q d).symm
          | some bs =>
            have hlen : (some (d ++ bs)).map List.length = some (d.length + bs.length) := by simp
            change Json.decodeLoop s e n q (some (d ++ bs)) = _
            rw [ih, hlen]
            exact (returned_stores d bs d.length _ _).symm

theorem jsonDecodeUtf8_eq (s : List UInt8) (src srcLen : ℕ) :
    Json.decodeUtf8 s src srcLen = returned [] (decodeUtf8 s src srcLen) := by
  rw [Json.decodeUtf8, decodeUtf8]
  split_ifs
  · rfl
  · cases load s src with
    | error e => rfl
    | ok c =>
      simp only [ok_bind, read_ok_bind]
      split_ifs
      · rfl
      · cases load s (src + srcLen - 1) with
        | error e => rfl
        | ok d =>
          simp only [ok_bind, read_ok_bind]
          split_ifs
          · rfl
          · exact jsonDecodeLoop_eq _ _ _ _ _

/-- The value of hexadecimal digits, if there are any. -/
def hexNumber (ds : List UInt8) : Option ℕ :=
  if ds = [] then none else some (ds.foldl (fun n d => n * 16 + hexValue d) 0)

/-- At most `width` hexadecimal digits. -/
def hexDigits (width : ℕ) (t : List UInt8) : List UInt8 := (t.take width).takeWhile isxdigit

/-- An unsigned number of at most `width` characters, which may begin with `0x`. -/
def hexUnsigned (width : ℕ) : List UInt8 → Option ℕ
  | [] => none
  | z :: t =>
    if z = chr '0' ∧ t.head?.any (tolower · = chr 'x') then hexNumber (hexDigits (width - 2) t.tail)
    else hexNumber (hexDigits width (z :: t))

/-- What `sscanf("%04x")` makes of a text up to a quote: white space, then at most four characters
of sign, prefix and digits. -/
def hexField (t : List UInt8) : Option ℕ :=
  match t.dropWhile isspace with
  | [] => none
  | c :: t =>
    if c = chr '-' then (hexUnsigned 3 t).map fun n => (2 ^ 32 - n) % 2 ^ 32
    else if c = chr '+' then hexUnsigned 3 t
    else hexUnsigned 4 (c :: t)

theorem hexValue_lt (hc : isxdigit c = true) : hexValue c < 16 := by
  have hall : ∀ n < 256, isxdigit (UInt8.ofNat n) = true → hexValue (UInt8.ofNat n) < 16 := by
    decide +kernel
  have := hall c.toNat c.toNat_lt
  rw [UInt8.ofNat_toNat] at this
  exact this hc

theorem foldl_hexValue_lt (h : ∀ d ∈ ds, isxdigit d = true) (m : ℕ) :
    ds.foldl (fun n d => n * 16 + hexValue d) m < (m + 1) * 16 ^ ds.length := by
  induction ds generalizing m with
  | nil => simp
  | cons d ds ih =>
    have hd := hexValue_lt (h d (.head _))
    calc (d :: ds).foldl (fun n d => n * 16 + hexValue d) m
        < (m * 16 + hexValue d + 1) * 16 ^ ds.length := ih (fun d hd => h d (.tail _ hd)) _
      _ ≤ ((m + 1) * 16) * 16 ^ ds.length := Nat.mul_le_mul_right _ (by omega)
      _ = (m + 1) * 16 ^ (d :: ds).length := by
        rw [List.length_cons, Nat.pow_succ, Nat.mul_assoc, Nat.mul_comm 16]

theorem hexNumber_lt {w : ℕ} (h : hexNumber (hexDigits w t) = some v) : v < 16 ^ w := by
  rw [hexNumber] at h
  split at h
  · cases h
  · have hlen : (hexDigits w t).length ≤ w := by
      have htake : (t.take w).length ≤ w := by
        rw [List.length_take]
        exact Nat.min_le_left _ _
      exact Nat.le_trans (List.takeWhile_prefix _).length_le htake
    have hdigits : ∀ d ∈ hexDigits w t, isxdigit d = true :=
      List.all_eq_true.mp List.all_takeWhile
    rw [← Option.some.inj h]
    have := foldl_hexValue_lt hdigits 0
    rw [Nat.zero_add, Nat.one_mul] at this
    exact Nat.lt_of_lt_of_le this (Nat.pow_le_pow_right (by decide) hlen)

theorem hexUnsigned_lt {w : ℕ} (h : hexUnsigned w t = some v) : v < 16 ^ w := by
  cases t with
  | nil => cases h
  | cons z t =>
    rw [hexUnsigned] at h
    split at h
    · exact Nat.lt_of_lt_of_le (hexNumber_lt h) (Nat.pow_le_pow_right (by decide) (Nat.sub_le _ _))
    · exact hexNumber_lt h

/-- A field is no code point if and only if it is a negative number, other than zero. -/
theorem hexField_negative (h : hexField t = some v) : 0x110000 ≤ v ↔
    ∃ u n, t.dropWhile isspace = chr '-' :: u ∧ hexUnsigned 3 u = some n ∧ n ≠ 0 := by
  rw [hexField] at h
  split at h
  · cases h
  · rename_i c u hd
    rw [hd]
    split_ifs at h with hminus hplus
    · obtain ⟨n, hn, rfl⟩ := Option.map_eq_some_iff.mp h
      have hlt := hexUnsigned_lt hn
      constructor
      · intro hle
        refine ⟨u, n, by rw [hminus], hn, ?_⟩
        rintro rfl
        omega
      · rintro ⟨u', n', hu, hn', hne⟩
        obtain rfl := (List.cons.inj hu).2
        obtain rfl := Option.some.inj (hn.symm.trans hn')
        omega
    · have hlt := hexUnsigned_lt h
      exact iff_of_false (by omega) fun ⟨u', n', hu, _⟩ => hminus (List.cons.inj hu).1
    · have hlt := hexUnsigned_lt h
      exact iff_of_false (by omega) fun ⟨u', n', hu, _⟩ => hminus (List.cons.inj hu).1

theorem scanDigits_at (h : At s p (t ++ chr '"' :: r)) (width acc count : ℕ) :
    scanDigits s width p acc count = .ok
      ((hexDigits width t).foldl (fun n d => n * 16 + hexValue d) acc,
        count + (hexDigits width t).length) := by
  induction width generalizing t p acc count with
  | zero => rfl
  | succ width ih =>
    cases t with
    | nil =>
      rw [scanDigits, load_at (show At s p (chr '"' :: r) from h), ok_bind, if_neg (by decide)]
      rfl
    | cons c t =>
      rw [scanDigits, load_at (show At s p (c :: (t ++ chr '"' :: r)) from h), ok_bind, hexDigits,
        List.take_succ_cons]
      by_cases hc : isxdigit c = true
      · rw [if_pos hc, ih (show At s p (c :: (t ++ chr '"' :: r)) from h).cons,
          List.takeWhile_cons_of_pos hc, List.foldl_cons, List.length_cons, hexDigits]
        congr 2
        omega
      · rw [if_neg hc, List.takeWhile_cons_of_neg hc]
        rfl

theorem scanUnsigned_at (h : At s p (t ++ chr '"' :: r)) {width : ℕ} (hwidth : 2 ≤ width) :
    scanUnsigned s width p = .ok (hexUnsigned width t) := by
  have hnumber (q w : ℕ) (u : List UInt8) (hq : At s q (u ++ chr '"' :: r)) :
      (scanDigits s w q 0 0 >>= fun d => pure (if d.2 = 0 then none else some d.1)) =
        .ok (hexNumber (hexDigits w u)) := by
    rw [scanDigits_at hq, ok_bind, hexNumber, Nat.zero_add]
    cases hexDigits w u <;> rfl
  rw [scanUnsigned, if_neg (by omega)]
  cases t with
  | nil =>
    have hz : load s p = .ok (chr '"') := load_at h
    rw [hz, ok_bind, if_neg (by decide)]
    exact (hnumber p width [] h).trans (by cases width <;> rfl)
  | cons z t =>
    have hcons : At s p (z :: (t ++ chr '"' :: r)) := h
    rw [load_at hcons, ok_bind, hexUnsigned]
    by_cases hz : z = chr '0'
    · rw [if_pos hz]
      cases t with
      | nil =>
        have hquote : load s (p + 1) = .ok (chr '"') := load_at hcons.cons
        rw [hquote, ok_bind, if_neg (by simp)]
        exact hnumber p width _ h
      | cons x t =>
        have hx : load s (p + 1) = .ok x := load_at hcons.cons
        rw [hx, ok_bind]
        by_cases hhex : tolower x = chr 'x'
        · rw [if_pos (by simp [hz, hhex]), decide_eq_true hhex]
          exact hnumber (p + 2) (width - 2) t hcons.cons.cons
        · rw [if_neg (by simp [hhex]), decide_eq_false hhex]
          exact hnumber p width _ h
    · rw [if_neg hz, if_neg fun h => hz h.1]
      exact hnumber p width _ h

theorem skipWhile_quote (h : At s p (t ++ chr '"' :: r)) :
    ∃ q, skipWhile isspace s p = .ok q ∧ At s q (t.dropWhile isspace ++ chr '"' :: r) := by
  induction t generalizing p with
  | nil => exact ⟨p, skipWhile_stop h (by decide), h⟩
  | cons c t ih =>
    have hcons : At s p (c :: (t ++ chr '"' :: r)) := h
    cases hc : isspace c with
    | false =>
      rw [List.dropWhile_cons_of_neg (by simp [hc])]
      exact ⟨p, skipWhile_stop hcons hc, h⟩
    | true =>
      obtain ⟨q, hq, hat⟩ := ih hcons.cons
      refine ⟨q, ?_, by rwa [List.dropWhile_cons_of_pos hc]⟩
      rw [← hq, skipWhile, skipWhile, hcons, hcons.cons, skipFrom, if_pos hc]

theorem sscanfHex_at (h : At s p (t ++ chr '"' :: r)) : sscanfHex s p = .ok (hexField t) := by
  obtain ⟨q, hq, hat⟩ := skipWhile_quote h
  rw [sscanfHex, hq, ok_bind, hexField]
  cases hd : t.dropWhile isspace with
  | nil =>
    rw [hd] at hat
    have hquote : load s q = .ok (chr '"') := load_at hat
    rw [hquote, ok_bind, if_neg (by decide), if_neg (by decide),
      scanUnsigned_at (t := []) hat (by decide)]
    rfl
  | cons c u =>
    rw [hd] at hat
    have hcons : At s q (c :: (u ++ chr '"' :: r)) := hat
    rw [load_at hcons, ok_bind]
    simp only
    by_cases hminus : c = chr '-'
    · rw [if_pos hminus, if_pos hminus, scanUnsigned_at hcons.cons (by decide)]
      rfl
    · rw [if_neg hminus, if_neg hminus]
      by_cases hplus : c = chr '+'
      · rw [if_pos hplus, if_pos hplus, scanUnsigned_at hcons.cons (by decide)]
      · rw [if_neg hplus, if_neg hplus, scanUnsigned_at hat (by decide)]

/-- What a backslash begins. -/
def escape : List UInt8 → Next (List UInt8)
  | [] => .reject
  | e :: t =>
    match shortEscape e with
    | some b => .put b t
    | none =>
      if e = chr 'u' ∧ 4 ≤ t.length then
        match hexField t with
        | none => .reject
        | some v => .append v (t.drop 4)
      else .reject

/-- What is next in the text between the quotes, with what is behind it. -/
def step : List UInt8 → Next (List UInt8)
  | [] => .stop
  | c :: t => if c = chr '\\' then escape t else .put c t

/-- The place of what is left in front of the closing quote at `e`. -/
def Next.place (e : ℕ) : Next (List UInt8) → Next ℕ
  | .stop => .stop
  | .reject => .reject
  | .put c u => .put c (e - u.length)
  | .append v u => .append v (e - u.length)

/-- This much is left in front of the closing quote at `e`. -/
def Behind (s : List UInt8) (e : ℕ) (t : List UInt8) : Prop :=
  t.length ≤ e ∧ ∃ r, At s (e - t.length) (t ++ chr '"' :: r)

theorem Behind.suffix (h : Behind s e t) (hu : u <:+ t) : Behind s e u := by
  obtain ⟨a, rfl⟩ := hu
  obtain ⟨hlen, r, hat⟩ := h
  rw [List.length_append] at hlen hat
  have hplace : e - (a.length + u.length) + a.length = e - u.length := by omega
  rw [List.append_assoc] at hat
  exact ⟨by omega, r, hplace ▸ hat.append⟩

/-- What is left behind a step. -/
inductive Next.Leaves : Next (List UInt8) → List UInt8 → Prop
  | put (c : UInt8) (u : List UInt8) : Leaves (.put c u) u
  | append (v : ℕ) (u : List UInt8) : Leaves (.append v u) u

theorem escape_suffix (h : (escape t).Leaves u) : u <:+ t ∧ u.length < t.length := by
  cases t with
  | nil => cases h
  | cons e t =>
    rw [escape] at h
    split at h
    · cases h
      exact ⟨List.suffix_cons e _, Nat.lt_succ_self _⟩
    · split at h
      · split at h
        · cases h
        · cases h
          have hdrop := List.drop_suffix 4 t
          exact ⟨hdrop.trans (List.suffix_cons e t), Nat.lt_succ_of_le hdrop.length_le⟩
      · cases h

theorem step_suffix (h : (step t).Leaves u) : u <:+ t ∧ u.length < t.length := by
  cases t with
  | nil => cases h
  | cons c t =>
    rw [step] at h
    split at h
    · obtain ⟨hsuffix, hlt⟩ := escape_suffix h
      exact ⟨hsuffix.trans (List.suffix_cons c t), Nat.lt_succ_of_lt hlt⟩
    · cases h
      exact ⟨List.suffix_cons c _, Nat.lt_succ_self _⟩

theorem leaves_put (h : step t = .put c u) : (step t).Leaves u := h ▸ .put c u

theorem leaves_append (h : step t = .append v u) : (step t).Leaves u := h ▸ .append v u

theorem Behind.next (h : Behind s e t) (hu : (step t).Leaves u) (hn : t.length < n + 1) :
    Behind s e u ∧ u.length < n := by
  obtain ⟨hsuffix, hlt⟩ := step_suffix hu
  exact ⟨h.suffix hsuffix, Nat.lt_of_lt_of_le hlt (Nat.le_of_lt_succ hn)⟩

/-- The loop takes one step, and reads nothing behind the closing quote. -/
theorem readNext_at (h : Behind s e t) : readNext s e (e - t.length) = .ok ((step t).place e) := by
  cases t with
  | nil => exact if_neg (Nat.lt_irrefl e)
  | cons c t =>
    obtain ⟨hlen, r, hat⟩ := h
    have hcons : At s (e - (c :: t).length) (c :: (t ++ chr '"' :: r)) := hat
    have hone : e - (c :: t).length + 1 = e - t.length := by
      rw [List.length_cons] at hlen ⊢
      omega
    rw [List.length_cons] at hlen
    rw [readNext, if_pos (by rw [List.length_cons]; omega), load_at hcons, ok_bind, step, hone]
    by_cases hc : c = chr '\\'
    · rw [if_pos hc, if_pos hc]
      cases t with
      | nil =>
        rw [if_pos (by simp)]
        rfl
      | cons d t =>
        have hcons' : At s (e - (d :: t).length) (d :: (t ++ chr '"' :: r)) := hone ▸ hcons.cons
        have htwo : e - (c :: d :: t).length + 2 = e - t.length := by
          simp only [List.length_cons] at hlen ⊢
          omega
        rw [if_neg (by simp only [List.length_cons] at hlen ⊢; omega), load_at hcons', ok_bind,
          htwo, escape]
        cases shortEscape d with
        | some b => rfl
        | none =>
          simp only
          have hfield : At s (e - t.length) (t ++ chr '"' :: r) := by
            rw [← htwo]
            exact hcons.cons.cons
          by_cases hu : d = chr 'u'
          · rw [if_pos hu, sscanfHex_at hfield, ok_bind]
            by_cases hfour : 4 ≤ t.length
            · have hsix : e - (c :: d :: t).length + 6 = e - (t.drop 4).length := by
                simp only [List.length_cons, List.length_drop] at hlen ⊢
                omega
              rw [if_neg (by simp only [List.length_cons] at hlen; omega), if_pos ⟨hu, hfour⟩,
                hsix]
              cases hexField t <;> rfl
            · rw [if_pos (by simp only [List.length_cons] at hlen; omega),
                if_neg fun h => hfour h.2]
              rfl
          · rw [if_neg hu, if_neg fun h => hu h.1]
            rfl
    · rw [if_neg hc, if_neg hc]
      rfl

theorem decodeLoop_step (h : Behind s e t) (n : ℕ) (dst : Option ℕ) :
    decodeLoop s e (n + 1) (e - t.length) dst =
      turn (decodeLoop s e n) dst ((step t).place e) := by
  rw [decodeLoop_succ, readNext_at h, read_ok_bind]

/-- The literal with a text between its quotes. -/
def quoted (t : List UInt8) : List UInt8 := chr '"' :: (t ++ [chr '"'])

theorem decodeUtf8_quoted (t : List UInt8) : Behind (quoted t) (t.length + 1) t ∧
    decodeUtf8 (quoted t) 0 (quoted t).length =
      decodeLoop (quoted t) (t.length + 1) (t.length + 2) (t.length + 1 - t.length) (some 0) := by
  have hat : At (quoted t) 0 (chr '"' :: (t ++ chr '"' :: [])) := rfl
  have hlen : (quoted t).length = t.length + 2 := by simp [quoted]
  have hone : t.length + 1 - t.length = 0 + 1 := by omega
  have hend : load (quoted t) (0 + (t.length + 2) - 1) = .ok (chr '"') := by
    have := load_at hat.cons.append
    rwa [show 0 + 1 + t.length = 0 + (t.length + 2) - 1 by omega] at this
  refine ⟨⟨Nat.le_succ _, [], hone ▸ hat.cons⟩, ?_⟩
  rw [decodeUtf8, hlen, if_neg (by omega), load_at hat, read_ok_bind, if_neg (not_not.mpr rfl)]
  simp only [hend, read_ok_bind]
  rw [if_neg (not_not.mpr rfl), hone]
  congr 1
  omega

/-- Text that is not in quotes is rejected at once. -/
theorem decodeUtf8_unquoted {text : List UInt8} (h : ∀ t, text ≠ quoted t) :
    decodeUtf8 text 0 text.length = pure none := by
  rw [decodeUtf8]
  by_cases hlen : text.length < 2
  · exact if_pos hlen
  rw [if_neg hlen]
  obtain ⟨c, t, d, rfl⟩ : ∃ c t d, text = c :: (t ++ [d]) := by
    cases text with
    | nil => exact absurd Nat.zero_lt_two hlen
    | cons c t =>
      cases t using List.reverseRecOn with
      | nil => exact absurd Nat.one_lt_two hlen
      | append_singleton t d => exact ⟨c, t, d, rfl⟩
  have hat : At (c :: (t ++ [d])) 0 (c :: (t ++ d :: [])) := rfl
  have hend : load (c :: (t ++ [d])) (0 + (c :: (t ++ [d])).length - 1) = .ok d := by
    have := load_at hat.cons.append
    rwa [show 0 + 1 + t.length = 0 + (c :: (t ++ [d])).length - 1 by simp; omega] at this
  rw [load_at hat, read_ok_bind]
  by_cases hc : c = chr '"'
  · rw [if_neg (not_not.mpr hc)]
    simp only [hend, read_ok_bind]
    by_cases hd : d = chr '"'
    · exact absurd (by rw [hc, hd]; rfl) (h t)
    · exact if_pos hd
  · exact if_pos hc

end Libuo.JsonDecode
