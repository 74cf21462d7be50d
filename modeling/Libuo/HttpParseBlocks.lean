import Libuo.HttpMsg

/-!
# Parsing in memory

The functions that parse a start line and headers, over the blocks they read and write: the
received bytes, and the copies that are allocated. A pointer is an offset in its block, and every
byte is read and written through it, so that an access outside of the block stops the function.
-/

namespace Libuo.HttpParseBlocks
open CStrings CText HttpMsg

/-- `*p = c`. -/
def store (s : List UInt8) (p : ℕ) (c : UInt8) : Scan (List UInt8) :=
  if p < s.length then .ok (s.set p c) else .error .fault

/-- `p[-1]`. -/
def loadBefore (s : List UInt8) : ℕ → Scan UInt8
  | 0 => .error .fault
  | p + 1 => load s p

/-- The `n` bytes from `p` on, as `memcmp` and `memcpy` read them. -/
def bytes (s : List UInt8) (p n : ℕ) : Scan (List UInt8) :=
  if p + n ≤ s.length then .ok ((s.drop p).take n) else .error .fault

/-- `malloc (n + 1)`, `memcpy` of the `n` bytes from `p` on, and a NUL behind them. -/
def copy (s : List UInt8) (p n : ℕ) : Scan (List UInt8) := do
  return (← bytes s p n) ++ [0]

/-- The text from `p` on, up to its NUL. -/
def string (s : List UInt8) (p : ℕ) : Scan (List UInt8) := do
  let e ← skipWhile (· ≠ 0) s p
  return (s.drop p).take (e - p)

/-- At most `n` bytes are searched, one after the other. -/
def memchrFrom (c : UInt8) : List UInt8 → ℕ → ℕ → Scan (Option ℕ)
  | _, _, 0 => .ok none
  | [], _, _ + 1 => .error .fault
  | d :: l, p, n + 1 => if d = c then .ok (some p) else memchrFrom c l (p + 1) n

def memchr (s : List UInt8) (p : ℕ) (c : UInt8) (n : ℕ) : Scan (Option ℕ) :=
  memchrFrom c (s.drop p) p n

def strrchrFrom (c : UInt8) : List UInt8 → ℕ → Scan (Option ℕ)
  | [], _ => .error .fault
  | d :: l, p =>
    if d = 0 then .ok none
    else do
      match ← strrchrFrom c l (p + 1) with
      | some q => pure (some q)
      | none => pure (if d = c then some p else none)

/-- `strrchr`, for a character other than NUL. -/
def strrchr (s : List UInt8) (p : ℕ) (c : UInt8) : Scan (Option ℕ) := strrchrFrom c (s.drop p) p

/-- The text begins with the needle. The comparison ends with the first difference. -/
def startsWith : List UInt8 → List UInt8 → Scan Bool
  | _, [] => .ok true
  | [], _ :: _ => .error .fault
  | d :: l, c :: needle => if d = c then startsWith l needle else .ok false

def strstrFrom (needle : List UInt8) : List UInt8 → ℕ → Scan (Option ℕ)
  | [], _ => .error .fault
  | d :: l, p => do
    if ← startsWith (d :: l) needle then pure (some p)
    else if d = 0 then pure none
    else strstrFrom needle l (p + 1)

def strstr (s : List UInt8) (p : ℕ) (needle : List UInt8) : Scan (Option ℕ) :=
  strstrFrom needle (s.drop p) p

/-- `strtok_r` from `p` on: the block, the token, and the pointer that is saved. -/
def strtok (delims s : List UInt8) (p : ℕ) : Scan (List UInt8 × Option ℕ × ℕ) := do
  let p ← skipWhile (delims.contains ·) s p
  if (← load s p) = 0 then return (s, none, p)
  let e ← skipWhile (fun c => !delims.contains c && c ≠ 0) s p
  if (← load s e) = 0 then return (s, some p, e)
  return (← store s e 0, some p, e + 1)

/-- `switch (sp1 - p)`: a text of one of these lengths is compared with the methods. -/
def readMethod (startLine : List UInt8) (sp1 : ℕ) : Scan (Option Method) :=
  if 3 ≤ sp1 ∧ sp1 ≤ 7 then do return methodOf (← bytes startLine 0 sp1) else pure none

/-- The part of `uo_http_msg_parse_start_line` for requests, on the copy of the line. -/
def parseRequestLine (msg : Msg) (startLine : List UInt8) (startLineLen cr : ℕ) :
    Scan (Msg × Bool) := do
  let some sp1 ← memchr startLine 0 (chr ' ') startLineLen | return invalid msg
  let method ← readMethod startLine sp1
  let msg := { msg with method := method.getD msg.method }
  let some sp2 ← strrchr startLine (sp1 + 1) (chr ' ') | return invalid msg
  let startLine ← store startLine sp2 0
  let some p ← CStrings.strchr startLine (sp2 + 1) (chr '\r') | return invalid msg
  let some ver := verOf (← loadBefore startLine p) | return invalid msg
  return ({ msg with
    ver
    methodSpUri := some (← string startLine 0)
    uri := some (← string startLine (sp1 + 1))
    versionCrlf := some (← string startLine (sp2 + 1))
    parsingOffset := cr + 2
    startLine := true }, true)

/-- The part of `uo_http_msg_parse_start_line` for responses, on the copy of the line. -/
def parseStatusLine (msg : Msg) (startLine : List UInt8) (startLineLen cr : ℕ) :
    Scan (Msg × Bool) := do
  let startLine ← store startLine (startLineLen - 2) 0
  let some sp1 ← CStrings.strchr startLine 0 (chr ' ') | return invalid msg
  let some ver := verOf (← loadBefore startLine sp1) | return invalid msg
  let msg := { msg with ver }
  let some status := (scanInt (← string startLine (sp1 + 1))).bind statusOf | return invalid msg
  return ({ msg with
    status
    version := some (← string startLine 0)
    statusSpReason := some (← string startLine (sp1 + 1))
    parsingOffset := cr + 2
    startLine := true }, true)

/-- `len - 1` for the length of the received bytes. -/
def lenMinusOne (buf : List UInt8) : ℕ := if buf = [] then 2 ^ 64 - 1 else buf.length - 1

def parseStartLine (msg : Msg) : Scan (Msg × Bool) := do
  let some cr ← memchr msg.buf 0 (chr '\r') (lenMinusOne msg.buf) | return (msg, false)
  if (← load msg.buf (cr + 1)) ≠ chr '\n' then return (msg, false)
  let startLine ← copy msg.buf 0 (cr + 2)
  match msg.type with
  | .request => parseRequestLine msg startLine (cr + 2) cr
  | .response => parseStatusLine msg startLine (cr + 2) cr

/-- `while (*p)`: a name is put in lower case, up to its NUL. -/
def lowerLoop : ℕ → List UInt8 → ℕ → Scan (List UInt8 × ℕ)
  | 0, _, _ => .error .fuel
  | fuel + 1, s, p => do
    let c ← load s p
    if c = 0 then return (s, p)
    lowerLoop fuel (← store s p (tolower c)) (p + 1)

/-- `while (header_name)`, with the pointer that `strtok_r` has saved. The table is given the
strings that the two pointers stand for. -/
def headerLoop : ℕ → List UInt8 → Option ℕ → ℕ → List (List UInt8 × Option (List UInt8)) →
    Scan (List (List UInt8 × Option (List UInt8)))
  | 0, _, _, _, _ => .error .fuel
  | _ + 1, _, none, _, headers => .ok headers
  | fuel + 1, s, some headerName, _, headers => do
    let (s, p) ← lowerLoop (s.length + 1) s headerName
    let p ← skipWhile isspace s (p + 1)
    let (s, headerValue, saveptr) ← strtok (text "\r") s p
    let name ← string s headerName
    let value ← headerValue.mapM (string s)
    let headers := OrderedMap.set strings headers name value
    let (s, headerName, saveptr) ← strtok (text "\n:") s saveptr
    headerLoop fuel s headerName saveptr headers

/-- `uo_http_msg_parse_headers`, with the NUL behind the received bytes. -/
def parseHeaders (msg : Msg) : Scan (Msg × Bool) := do
  let buf := msg.buf ++ [0]
  if msg.parsingOffset < 2 then .error .fault
  let headersStart := msg.parsingOffset
  let some headersEnd ← strstr buf (headersStart - 2) (crlf ++ crlf) | return (msg, false)
  let msg := { msg with parsingOffset := headersEnd + 4 }
  if headersStart > headersEnd then return ({ msg with hasHeaders := true }, true)
  let headersLen := headersEnd - headersStart
  let p ← copy buf headersStart headersLen
  let (p, headerName, saveptr) ← strtok (text ":") p 0
  let headers ← headerLoop (headersLen + 1) p headerName saveptr msg.headers
  return ({ msg with headers, hasHeaders := true }, true)

/-- What `strtok_r` finds in a text: no token, a token that ends with the text, or one that a
delimiter ends. -/
inductive Tokens (delims : List UInt8) :
    List UInt8 → Option (List UInt8 × Option (List UInt8)) → Prop
  | none {l} : (∀ c ∈ l, c ∈ delims) → Tokens delims l none
  | last {l tok} : (∀ c ∈ l, c ∈ delims) → tok ≠ [] → (∀ c ∈ tok, c ∉ delims) →
      Tokens delims (l ++ tok) (some (tok, .none))
  | more {l tok c rest} : (∀ c ∈ l, c ∈ delims) → tok ≠ [] → (∀ c ∈ tok, c ∉ delims) →
      c ∈ delims → Tokens delims (l ++ (tok ++ c :: rest)) (some (tok, some rest))

variable {s a l r t needle delims : List UInt8} {c d : UInt8} {f : UInt8 → Bool} {n p : ℕ}

theorem load_append (a r : List UInt8) (c : UInt8) : load (a ++ c :: r) a.length = .ok c :=
  load_at (at_append a (c :: r))

theorem store_append (a r : List UInt8) (c d : UInt8) :
    store (a ++ c :: r) a.length d = .ok (a ++ d :: r) := by
  rw [store, if_pos (by simp)]
  simp

theorem bytes_append (a l r : List UInt8) : bytes (a ++ (l ++ r)) a.length l.length = .ok l := by
  rw [bytes, if_pos (by simp), List.drop_left, List.take_left]

theorem of_dropWhile_eq (h : l.dropWhile f = c :: r) : f c = false := by
  have hne : l.dropWhile f ≠ [] := by
    rw [h]
    exact List.cons_ne_nil c r
  have hhead := List.head_dropWhile_not f hne
  simpa only [h, List.head_cons] using hhead

theorem skipWhile_append (a l r : List UInt8) (hc : f c = false) :
    skipWhile f (a ++ (l ++ c :: r)) a.length = .ok (a ++ l.takeWhile f).length := by
  have hsplit : l ++ c :: r = l.takeWhile f ++ (l.dropWhile f ++ c :: r) := by
    rw [← List.append_assoc, List.takeWhile_append_dropWhile]
  have hall : ∀ d ∈ l.takeWhile f, f d = true := fun d hd => List.mem_takeWhile_imp hd
  rw [hsplit, List.length_append]
  cases hdrop : l.dropWhile f with
  | nil => exact skipWhile_at (at_append a _) hall hc
  | cons d l' =>
    exact skipWhile_at (r := l' ++ c :: r) (at_append a _) hall (of_dropWhile_eq hdrop)

theorem string_append (a : List UInt8) (hl : 0 ∉ l) (r : List UInt8) :
    string (a ++ (l ++ 0 :: r)) a.length = .ok l := by
  have hall : l.takeWhile (· ≠ 0) = l := cstr_eq hl
  rw [string, skipWhile_append a l r (by simp), hall, ok_bind, List.drop_left, List.length_append,
    Nat.add_sub_cancel_left, List.take_left]
  rfl

theorem memchr_append (a s : List UInt8) (c : UInt8) (hn : n ≤ s.length) :
    memchr (a ++ s) a.length c n = .ok ((CText.memchr s c n).map (a.length + ·)) := by
  rw [memchr, List.drop_left, CText.memchr]
  generalize a.length = p
  induction s generalizing p n with
  | nil =>
    obtain rfl := Nat.le_zero.mp hn
    rfl
  | cons d s ih =>
    cases n with
    | zero => rfl
    | succ n =>
      rw [memchrFrom, List.take_succ_cons, List.idxOf?_cons]
      by_cases hdc : d = c
      · simp [hdc]
      · rw [if_neg hdc, ih (Nat.le_of_succ_le_succ hn), if_neg (by simpa using hdc),
          Option.map_map]
        congr 2
        funext i
        exact (Nat.add_assoc p 1 i).trans (congrArg _ (Nat.add_comm 1 i))

theorem strchr_append (a r : List UInt8) (hl : 0 ∉ l) (hc : c ≠ 0) :
    CStrings.strchr (a ++ (l ++ 0 :: r)) a.length c =
      .ok ((CText.strchr l c).map (a.length + ·)) := by
  by_cases hcl : c ∈ l
  · obtain ⟨l₁, l₂, rfl, hl₁⟩ := List.eq_append_cons_of_mem hcl
    have h0 : 0 ∉ l₁ := fun h => hl (List.mem_append_left _ h)
    rw [CText.strchr_eq hl₁, List.append_assoc]
    exact strchr_at (at_append a _) hl₁ h0
  · rw [CText.strchr, List.idxOf?_eq_none_iff.mpr hcl]
    exact strchr_none (at_append a _) hcl hl hc

theorem strrchr_append (a r : List UInt8) (hl : 0 ∉ l) (c : UInt8) :
    strrchr (a ++ (l ++ 0 :: r)) a.length c = .ok ((CText.strrchr l c).map (a.length + ·)) := by
  rw [strrchr, List.drop_left]
  generalize a.length = p
  induction l generalizing p with
  | nil => rfl
  | cons d l ih =>
    obtain ⟨hd, hl⟩ := not_or.mp (mt List.mem_cons.mpr hl)
    rw [List.cons_append, strrchrFrom, if_neg (Ne.symm hd), ih hl, ok_bind, CText.strrchr]
    cases CText.strrchr l c with
    | none =>
      by_cases hdc : d = c <;> simp [hdc]
    | some i => simp [Nat.add_assoc, Nat.add_comm 1]

theorem startsWith_append (r : List UInt8) (hneedle : 0 ∉ needle) :
    startsWith (l ++ 0 :: r) needle = .ok (needle.isPrefixOf l) := by
  induction needle generalizing l with
  | nil => simp [startsWith]
  | cons c needle ih =>
    obtain ⟨hc, hneedle⟩ := not_or.mp (mt List.mem_cons.mpr hneedle)
    cases l with
    | nil => simp [startsWith, hc]
    | cons d l =>
      rw [List.cons_append, startsWith, List.isPrefixOf]
      by_cases hdc : d = c
      · simp [hdc, ih hneedle]
      · simp [hdc, Ne.symm hdc]

theorem strstr_append (a r : List UInt8) (hl : 0 ∉ l) (hneedle : 0 ∉ needle)
    (hne : needle ≠ []) : strstr (a ++ (l ++ 0 :: r)) a.length needle =
      .ok ((CText.strstr l needle).map (a.length + ·)) := by
  rw [strstr, List.drop_left]
  generalize a.length = p
  induction l generalizing p with
  | nil =>
    have hstart := startsWith_append (l := []) r hneedle
    rw [List.nil_append] at hstart ⊢
    rw [strstrFrom, hstart, CText.strstr, if_neg hne]
    cases needle with
    | nil => exact absurd rfl hne
    | cons c needle => rfl
  | cons d l ih =>
    obtain ⟨hd, hl⟩ := not_or.mp (mt List.mem_cons.mpr hl)
    have hstart := startsWith_append (l := d :: l) r hneedle
    rw [List.cons_append] at hstart ⊢
    rw [strstrFrom, hstart, ok_bind, CText.strstr, if_neg (Ne.symm hd), ih hl]
    cases needle.isPrefixOf (d :: l) with
    | true => rfl
    | false =>
      simp [Option.map_map, Function.comp_def, Nat.add_assoc, Nat.add_comm 1]

theorem strtok_tokens (delims t : List UInt8) : Tokens delims t (CText.strtok delims t) := by
  have hfront : ∀ c ∈ t.takeWhile (delims.contains ·), c ∈ delims := fun c hc => by
    simpa using List.mem_takeWhile_imp hc
  cases hdrop : t.dropWhile (delims.contains ·) with
  | nil =>
    rw [CText.strtok, hdrop]
    refine .none fun c hc => hfront c ?_
    rwa [← List.append_nil (t.takeWhile _), ← hdrop, List.takeWhile_append_dropWhile]
  | cons c s =>
    have hc : c ∉ delims := by simpa using of_dropWhile_eq hdrop
    have ht : t = t.takeWhile (delims.contains ·) ++ (c :: s) := by
      rw [← hdrop, List.takeWhile_append_dropWhile]
    have htok : ∀ d ∈ (c :: s).takeWhile (!delims.contains ·), d ∉ delims := fun d hd => by
      simpa using List.mem_takeWhile_imp hd
    have hne : (c :: s).takeWhile (!delims.contains ·) ≠ [] := by
      rw [List.takeWhile_cons_of_pos (by simpa using hc)]
      exact List.cons_ne_nil _ _
    rw [CText.strtok, hdrop]
    simp only
    cases hrest : (c :: s).dropWhile (!delims.contains ·) with
    | nil =>
      have hcs : (c :: s).takeWhile (!delims.contains ·) = c :: s := by
        conv_rhs => rw [← List.takeWhile_append_dropWhile (p := (!delims.contains ·)) (l := c :: s),
          hrest, List.append_nil]
      rw [hcs] at htok hne ⊢
      conv => arg 2; rw [ht]
      exact .last hfront hne htok
    | cons d rest =>
      have hd : d ∈ delims := by simpa using of_dropWhile_eq hrest
      have hcs : c :: s = (c :: s).takeWhile (!delims.contains ·) ++ d :: rest := by
        rw [← hrest, List.takeWhile_append_dropWhile]
      conv => arg 2; rw [ht, hcs]
      exact .more hfront hne htok hd

theorem takeWhile_front {tok : List UInt8} (hl : ∀ c ∈ l, c ∈ delims)
    (htok : ∀ c ∈ tok.head?, c ∉ delims) : (l ++ tok).takeWhile (delims.contains ·) = l := by
  rw [List.takeWhile_append_of_pos fun c hc => by simpa using hl c hc]
  cases tok with
  | nil => rw [List.takeWhile_nil, List.append_nil]
  | cons d tok => rw [List.takeWhile_cons_of_neg (by simpa using htok d rfl), List.append_nil]

/-- `strtok_r` on text before the last NUL of a block. -/
theorem strtok_append (a : List UInt8) (ht : 0 ∉ t) (hdelims : 0 ∉ delims) :
    match CText.strtok delims t with
    | none => strtok delims (a ++ (t ++ [0])) a.length =
        .ok ((a ++ t) ++ [0], none, (a ++ t).length)
    | some (tok, none) => ∃ l, 0 ∉ tok ∧ strtok delims (a ++ (t ++ [0])) a.length =
        .ok ((a ++ l) ++ (tok ++ [0]), some (a ++ l).length, (a ++ l ++ tok).length)
    | some (tok, some rest) => ∃ l, 0 ∉ tok ∧ 0 ∉ rest ∧ rest.length < t.length ∧
        strtok delims (a ++ (t ++ [0])) a.length =
          .ok ((a ++ l) ++ (tok ++ 0 :: (rest ++ [0])), some (a ++ l).length,
            (a ++ l ++ (tok ++ [0])).length) := by
  have hzero : delims.contains 0 = false := by simpa using hdelims
  have hfind := strtok_tokens delims t
  generalize CText.strtok delims t = found at hfind
  cases hfind with
  | none hl =>
    have hskip : skipWhile (delims.contains ·) (a ++ (t ++ [0])) a.length =
        .ok (a ++ t).length := by
      have := @takeWhile_front _ _ [] hl nofun
      rw [List.append_nil] at this
      rw [skipWhile_append a t [] hzero, this]
    have hend : load (a ++ (t ++ [0])) (a ++ t).length = .ok 0 := by
      rw [← List.append_assoc]
      exact load_append _ _ _
    simp only [strtok, hskip, ok_bind, hend, if_pos]
    rw [← List.append_assoc]
    rfl
  | @last l tok hl hne htok =>
    obtain ⟨c, tok, rfl⟩ := List.exists_cons_of_ne_nil hne
    have h0 : 0 ∉ c :: tok := fun h => ht (List.mem_append_right _ h)
    have hc : c ≠ 0 := fun h => h0 (h ▸ .head _)
    have hskip : skipWhile (delims.contains ·) (a ++ (l ++ c :: tok ++ [0])) a.length =
        .ok (a ++ l).length := by
      rw [skipWhile_append a _ [] hzero, takeWhile_front hl fun d hd => by
        obtain rfl := Option.some.inj hd
        exact htok _ (.head _)]
    have hblock : a ++ (l ++ c :: tok ++ [0]) = (a ++ l) ++ (c :: tok ++ [0]) := by
      simp only [List.append_assoc]
    have hspan : skipWhile (fun c => !delims.contains c && decide (c ≠ 0))
        ((a ++ l) ++ (c :: tok ++ [0])) (a ++ l).length = .ok (a ++ l ++ c :: tok).length := by
      rw [skipWhile_append (a ++ l) (c :: tok) [] (by simp), List.takeWhile_eq_self_iff.mpr]
      intro d hd
      have hd0 : d ≠ 0 := fun h => h0 (h ▸ hd)
      simp [htok d hd, hd0]
    have hend : load ((a ++ l) ++ (c :: tok ++ [0])) (a ++ l ++ c :: tok).length = .ok 0 := by
      rw [← List.append_assoc]
      exact load_append _ _ _
    refine ⟨l, h0, ?_⟩
    rw [strtok, hskip, ok_bind, hblock, List.cons_append, load_append, ok_bind, if_neg hc]
    rw [List.cons_append] at hspan hend
    simp only [hspan, ok_bind, hend, if_pos]
    rfl
  | @more l tok e rest hl hne htok he =>
    obtain ⟨c, tok, rfl⟩ := List.exists_cons_of_ne_nil hne
    have h0 : 0 ∉ c :: tok := fun h => ht (by simp only [List.mem_append]; exact .inr (.inl h))
    have hrest : 0 ∉ rest := fun h => ht (by
      simp only [List.mem_append, List.mem_cons]
      exact .inr (.inr (.inr h)))
    have hc : c ≠ 0 := fun h => h0 (h ▸ .head _)
    have he0 : e ≠ 0 := fun h => hdelims (h ▸ he)
    have hskip : skipWhile (delims.contains ·) (a ++ (l ++ (c :: tok ++ e :: rest) ++ [0]))
        a.length = .ok (a ++ l).length := by
      rw [skipWhile_append a _ [] hzero, takeWhile_front hl fun d hd => by
        obtain rfl := Option.some.inj hd
        exact htok _ (.head _)]
    have hblock : a ++ (l ++ (c :: tok ++ e :: rest) ++ [0]) =
        (a ++ l) ++ (c :: tok ++ e :: (rest ++ [0])) := by
      simp only [List.append_assoc, List.cons_append]
    have hspan : skipWhile (fun c => !delims.contains c && decide (c ≠ 0))
        ((a ++ l) ++ (c :: tok ++ e :: (rest ++ [0]))) (a ++ l).length =
          .ok (a ++ l ++ c :: tok).length := by
      rw [skipWhile_append (a ++ l) (c :: tok) _ (by simp [he]), List.takeWhile_eq_self_iff.mpr]
      intro d hd
      have hd0 : d ≠ 0 := fun h => h0 (h ▸ hd)
      simp [htok d hd, hd0]
    have hend : load ((a ++ l) ++ (c :: tok ++ e :: (rest ++ [0]))) (a ++ l ++ c :: tok).length =
        .ok e := by
      rw [← List.append_assoc]
      exact load_append _ _ _
    have hstore : store ((a ++ l) ++ (c :: tok ++ e :: (rest ++ [0])))
        (a ++ l ++ c :: tok).length 0 = .ok ((a ++ l) ++ (c :: tok ++ 0 :: (rest ++ [0]))) := by
      rw [← List.append_assoc, store_append, List.append_assoc]
    refine ⟨l, h0, hrest, by simp; omega, ?_⟩
    rw [strtok, hskip, ok_bind, hblock, List.cons_append, load_append, ok_bind, if_neg hc]
    rw [List.cons_append] at hspan hend hstore
    simp only [hspan, ok_bind, hend, if_neg he0, hstore]
    simp [Nat.add_assoc]

theorem lowerLoop_append (a r : List UInt8) (hl : 0 ∉ l) (hn : l.length < n) :
    lowerLoop n (a ++ (l ++ 0 :: r)) a.length =
      .ok (a ++ (l.map tolower ++ 0 :: r), (a ++ l).length) := by
  induction l generalizing a n with
  | nil =>
    obtain ⟨n, rfl⟩ := Nat.exists_eq_add_one_of_ne_zero (Nat.ne_zero_of_lt hn)
    rw [List.nil_append, lowerLoop, load_append, ok_bind, if_pos rfl, List.append_nil]
    rfl
  | cons c l ih =>
    obtain ⟨n, rfl⟩ := Nat.exists_eq_add_one_of_ne_zero (Nat.ne_zero_of_lt hn)
    obtain ⟨hc, hl⟩ := not_or.mp (mt List.mem_cons.mpr hl)
    have hnext := ih (a ++ [tolower c]) hl (Nat.lt_of_succ_lt_succ hn)
    have hblock : a ++ tolower c :: (l ++ 0 :: r) = (a ++ [tolower c]) ++ (l ++ 0 :: r) := by simp
    have hlen : a.length + 1 = (a ++ [tolower c]).length := by simp
    rw [List.cons_append, lowerLoop, load_append, ok_bind, if_neg (Ne.symm hc), store_append,
      ok_bind, hblock, hlen, hnext]
    simp

/-- A fault of a function on lists is an access outside of a block. -/
def scan {α : Type} : Except Fault α → Scan α
  | .ok a => .ok a
  | .error _ => .error .fault

variable {headers : List (List UInt8 × Option (List UInt8))} {name rest : List UInt8} {q : ℕ}

theorem zero_not_mem_lower (h : 0 ∉ name) : 0 ∉ name.map tolower := by
  intro h0
  obtain ⟨c, hc, hlower⟩ := List.mem_map.mp h0
  have hne : c ≠ 0 := fun h' => h (h' ▸ hc)
  have hnat : c.toNat ≠ 0 := fun h' => hne (UInt8.toNat_inj.mp h')
  rw [tolower] at hlower
  split at hlower
  · rename_i hupper
    simp only [Bool.and_eq_true, decide_eq_true_eq, UInt8.le_iff_toNat_le] at hupper
    have hsum := congrArg UInt8.toNat hlower
    have hz : (chr 'Z').toNat = 90 := rfl
    rw [UInt8.toNat_add] at hsum
    change (c.toNat + 32) % 256 = 0 at hsum
    omega
  · exact hne hlower

/-- A name that a delimiter has ended: the value is read, and the next name is looked for in what
is behind it. -/
theorem headerLoop_round (a : List UInt8) (hname : 0 ∉ name) (hrest : 0 ∉ rest) :
    ∃ a', headerLoop (n + 1) (a ++ (name ++ 0 :: (rest ++ [0]))) (some a.length) q headers =
      strtok (text "\n:")
        (a' ++ (((CText.strtok (text "\r") (rest.dropWhile isspace)).bind Prod.snd).getD [] ++ [0]))
        a'.length >>= fun r => headerLoop n r.1 r.2.1 r.2.2
          (OrderedMap.set strings headers (name.map tolower)
            ((CText.strtok (text "\r") (rest.dropWhile isspace)).map Prod.fst)) := by
  have hlower := lowerLoop_append (n := (a ++ (name ++ 0 :: (rest ++ [0]))).length + 1) a
    (rest ++ [0]) hname (by simp; omega)
  have hname' := zero_not_mem_lower hname
  have hlen : name.length = (name.map tolower).length := (List.length_map tolower).symm
  generalize name.map tolower = name' at hlower hname' hlen ⊢
  -- the value begins behind the white space
  let b := a ++ (name' ++ 0 :: rest.takeWhile isspace)
  have hblock : a ++ (name' ++ 0 :: (rest ++ [0])) = b ++ (rest.dropWhile isspace ++ [0]) := by
    simp only [b, List.append_assoc, List.cons_append]
    rw [← List.append_assoc (rest.takeWhile _), List.takeWhile_append_dropWhile]
  have hskip : skipWhile isspace (b ++ (rest.dropWhile isspace ++ [0])) ((a ++ name).length + 1) =
      .ok b.length := by
    have h := skipWhile_append (f := isspace) (a ++ (name' ++ [0])) rest [] (c := 0) (by decide)
    have hp : (a ++ name).length + 1 = (a ++ (name' ++ [0])).length := by
      simp [hlen, Nat.add_assoc]
    have hb : (a ++ (name' ++ [0])) ++ rest.takeWhile isspace = b := by simp [b]
    rw [← hblock, hp, ← hb, ← h]
    simp
  have hvalue := @strtok_append (rest.dropWhile isspace) (text "\r") b
    (fun h => hrest ((List.dropWhile_suffix _).subset h)) (by decide)
  have hkey : ∀ r : List UInt8, string (b ++ r) a.length = .ok name' := fun r => by
    have h := string_append a hname' (rest.takeWhile isspace ++ r)
    simpa [b] using h
  simp only [headerLoop, hlower, ok_bind, hblock, hskip]
  generalize CText.strtok (text "\r") (rest.dropWhile isspace) = found at hvalue ⊢
  match found, hvalue with
  | none, hvalue =>
    refine ⟨b ++ rest.dropWhile isspace, ?_⟩
    rw [hvalue, ok_bind]
    simp only [List.append_assoc b, hkey, ok_bind]
    rfl
  | some (value, none), hvalue =>
    obtain ⟨l, h0, hvalue⟩ := hvalue
    refine ⟨b ++ l ++ value, ?_⟩
    rw [hvalue, ok_bind]
    have hval := string_append (b ++ l) h0 []
    simp only [List.append_assoc b, List.length_append, hkey, ok_bind] at hval ⊢
    simp [hval]
  | some (value, some rest'), hvalue =>
    obtain ⟨l, h0, -, -, hvalue⟩ := hvalue
    refine ⟨b ++ l ++ (value ++ [0]), ?_⟩
    rw [hvalue, ok_bind]
    have hval := string_append (b ++ l) h0 (rest' ++ [0])
    simp only [List.append_assoc b, List.length_append, hkey, ok_bind] at hval ⊢
    simp [hval]

/-- The loops agree. The induction is on the length of the text in which the next name is looked
for, and the fuel of both loops suffices for it. -/
theorem headerLoop_eq {fuel : ℕ} (a : List UInt8) (ht : 0 ∉ t) (hdelims : 0 ∉ delims)
    (hn : t.length < n) (hfuel : t.length ≤ fuel) :
    (strtok delims (a ++ (t ++ [0])) a.length >>= fun r =>
      headerLoop n r.1 r.2.1 r.2.2 headers) =
        scan (parseHeaderLoop fuel (CText.strtok delims t) headers) := by
  induction hlen : t.length using Nat.strong_induction_on
    generalizing t a n fuel delims headers with
  | h m ih =>
    subst hlen
    obtain ⟨n, rfl⟩ := Nat.exists_eq_add_one_of_ne_zero (Nat.ne_zero_of_lt hn)
    have hspec := strtok_append a ht hdelims
    have hfind := strtok_tokens delims t
    generalize CText.strtok delims t = found at hspec hfind
    rcases found with _ | ⟨name, _ | rest⟩
    · dsimp only at hspec
      rw [hspec, ok_bind]
      cases fuel <;> rfl
    · obtain ⟨l, h0, hspec⟩ := hspec
      have hlower := lowerLoop_append (n := (a ++ l ++ (name ++ [0])).length + 1) (a ++ l) [] h0
        (by simp; omega)
      -- the NUL that the name is followed by is the last byte of the block
      have hbehind : ∀ name' : List UInt8, skipWhile isspace (a ++ l ++ (name' ++ [0]))
          ((a ++ l ++ name').length + 1) = .error .fault := fun name' => by
        rw [skipWhile, List.drop_of_length_le (by simp [Nat.add_assoc])]
        rfl
      have hsame : (a ++ l ++ name).length = (a ++ l ++ name.map tolower).length := by simp
      have hfault : scan (parseHeaderLoop fuel (some (name, none)) headers) = .error .fault := by
        cases fuel <;> rfl
      rw [hspec, ok_bind, hfault]
      simp only [headerLoop, hlower, ok_bind]
      rw [hsame, hbehind, error_bind]
    · obtain ⟨l, h0, hrest, hlt, hspec⟩ := hspec
      obtain ⟨fuel, rfl⟩ : ∃ k, fuel = k + 1 := ⟨fuel - 1, by omega⟩
      obtain ⟨a', hround⟩ := @headerLoop_round n headers _ _
        (a ++ l ++ (name ++ [0])).length (a ++ l) h0 hrest
      rw [hspec, ok_bind]
      simp only [hround, parseHeaderLoop]
      have hfound := @strtok_append (rest.dropWhile isspace) (text "\r") []
        (fun h => hrest ((List.dropWhile_suffix _).subset h)) (by decide)
      have hshort : (rest.dropWhile isspace).length ≤ rest.length :=
        (List.dropWhile_suffix _).length_le
      generalize CText.strtok (text "\r") (rest.dropWhile isspace) = value at hfound ⊢
      rcases value with _ | ⟨value, save⟩
      · have hnext := @ih 0 (by omega) [] (text "\n:") n
          (OrderedMap.set strings headers (name.map tolower) none) fuel a' (by simp)
          (by decide) (by simp; omega) (by simp) rfl
        have hend : scan (parseHeaderLoop fuel (CText.strtok (text "\n:") [])
            (OrderedMap.set strings headers (name.map tolower) none)) =
              .ok (OrderedMap.set strings headers (name.map tolower) none) := by
          cases fuel <;> rfl
        exact hnext.trans hend
      · have hsave : 0 ∉ save.getD [] ∧ (save.getD []).length ≤ rest.length := by
          cases save with
          | none => simp
          | some rest' =>
            obtain ⟨-, -, hrest', hlt', -⟩ := hfound
            exact ⟨hrest', by simp; omega⟩
        exact ih (save.getD []).length (by omega) (t := save.getD []) a' hsave.1 (by decide)
          (by omega) (by omega) rfl

theorem readMethod_append (m r : List UInt8) :
    readMethod (m ++ r) m.length = .ok (methodOf m) := by
  rw [readMethod]
  split
  · have hread := bytes_append [] m r
    rw [List.nil_append, List.length_nil] at hread
    rw [hread]
    rfl
  · rename_i hlen
    have hne : ∀ w : List UInt8, 3 ≤ w.length ∧ w.length ≤ 7 → m ≠ w := by
      rintro w hw rfl
      exact hlen hw
    simp [methodOf, hne (text "GET") (by decide), hne (text "PUT") (by decide),
      hne (text "POST") (by decide), hne (text "HEAD") (by decide), hne (text "TRACE") (by decide),
      hne (text "DELETE") (by decide), hne (text "OPTIONS") (by decide),
      hne (text "CONNECT") (by decide)]

theorem string_eq (a : List UInt8) (h : 0 ∈ s) : string (a ++ s) a.length = .ok (cstr s) := by
  obtain ⟨r, hs, h0⟩ := exists_cstr h
  conv_lhs => rw [hs]
  exact string_append a h0 r

theorem exists_of_idxOf? (h : s.idxOf? c = some p) : ∃ l r, s = l ++ c :: r ∧ l.length = p := by
  obtain ⟨hlt, hget, -⟩ := List.idxOf?_eq_some_iff.mp h
  refine ⟨s.take p, s.drop (p + 1), ?_, List.length_take_of_le hlt.le⟩
  rw [← hget, List.getElem_cons_drop, List.take_append_drop]

theorem exists_of_strrchr (h : CText.strrchr s c = some p) :
    ∃ l r, s = l ++ c :: r ∧ l.length = p := by
  induction s generalizing p with
  | nil => cases h
  | cons d s ih =>
    rw [CText.strrchr] at h
    cases hs : CText.strrchr s c with
    | some i =>
      rw [hs] at h
      obtain rfl := Option.some.inj h
      obtain ⟨l, r, rfl, rfl⟩ := ih hs
      exact ⟨d :: l, r, rfl, rfl⟩
    | none =>
      rw [hs] at h
      by_cases hdc : d = c
      · obtain rfl := Option.some.inj ((if_pos hdc).symm.trans h)
        exact ⟨[], s, by rw [hdc]; rfl, rfl⟩
      · cases (if_neg hdc).symm.trans h

/-- `p[-1]` behind a character and in a text. -/
theorem loadBefore_append (a r : List UInt8) (hn : n ≤ l.length) :
    loadBefore (a ++ d :: (l ++ r)) (a.length + 1 + n) = .ok ((d :: l).getD n c) := by
  rw [Nat.add_right_comm, loadBefore, load]
  have hget : (a ++ d :: (l ++ r))[a.length + n]? = some ((d :: l).getD n c) := by
    rw [List.getElem?_append_right (Nat.le_add_right _ _), Nat.add_sub_cancel_left,
      ← List.cons_append, List.getElem?_append_left (by simpa using Nat.lt_succ_of_le hn),
      List.getD_eq_getElem?_getD, List.getElem?_eq_getElem (by simpa using Nat.lt_succ_of_le hn)]
    rfl
  rw [hget]

theorem parseRequestLine_eq (msg : Msg) (startLine : List UInt8) (cr : ℕ) :
    parseRequestLine msg (startLine ++ [0]) startLine.length cr =
      .ok (HttpMsg.parseRequestLine msg startLine cr) := by
  have hsp1 := memchr_append [] (startLine ++ [0]) (chr ' ') (n := startLine.length) (by simp)
  have htake : CText.memchr (startLine ++ [0]) (chr ' ') startLine.length =
      CText.memchr startLine (chr ' ') startLine.length := by
    rw [CText.memchr, CText.memchr, List.take_left, List.take_length]
  rw [List.nil_append, List.length_nil, htake] at hsp1
  rw [parseRequestLine, hsp1, HttpMsg.parseRequestLine, ok_bind]
  cases hfirst : CText.memchr startLine (chr ' ') startLine.length with
  | none => rfl
  | some sp1 =>
    rw [CText.memchr, List.take_length] at hfirst
    obtain ⟨m, w, rfl, rfl⟩ := exists_of_idxOf? hfirst
    obtain ⟨r, hw, h0⟩ := exists_cstr (s := w ++ [0]) (by simp)
    have hblock : m ++ chr ' ' :: w ++ [0] = (m ++ [chr ' ']) ++ (cstr (w ++ [0]) ++ 0 :: r) := by
      rw [← hw]
      simp
    have hrest : cstr (w ++ [0]) = cstr w := cstr_append_zero w []
    rw [hrest] at hblock h0
    have hmethod : readMethod (m ++ chr ' ' :: w ++ [0]) m.length = .ok (methodOf m) := by
      rw [List.append_assoc]
      exact readMethod_append m _
    have htake' : (m ++ chr ' ' :: w).take m.length = m := List.take_left
    have hdrop : (m ++ chr ' ' :: w).drop (m.length + 1) = w := by
      rw [← List.drop_drop, List.drop_left]
      rfl
    have hsp2 := strrchr_append (m ++ [chr ' ']) r h0 (chr ' ')
    rw [← hblock, List.length_append, List.length_singleton] at hsp2
    simp only [Option.map_some, Nat.zero_add, ok_bind, hmethod, htake', hdrop, hsp2]
    generalize cstr w = rest at hblock h0 ⊢
    cases hlast : CText.strrchr rest (chr ' ') with
    | none => rfl
    | some sp2 =>
      obtain ⟨u, v, rfl, rfl⟩ := exists_of_strrchr hlast
      have hu : 0 ∉ u := fun h => h0 (List.mem_append_left _ h)
      have hv : 0 ∉ v := fun h => h0 (List.mem_append_right _ (.tail _ h))
      -- the second space becomes the NUL behind the URI
      have hlen : m.length + 1 + u.length = (m ++ [chr ' '] ++ u).length := by
        simp [Nat.add_assoc, Nat.add_comm 1]
      have hstore : store (m ++ chr ' ' :: w ++ [0]) (m.length + 1 + u.length) 0 =
          .ok (m ++ [chr ' '] ++ u ++ 0 :: (v ++ 0 :: r)) := by
        have hsplit : m ++ chr ' ' :: w ++ [0] =
            m ++ [chr ' '] ++ u ++ chr ' ' :: (v ++ 0 :: r) := by
          rw [hblock]
          simp only [List.append_assoc, List.cons_append]
        rw [hsplit, hlen, store_append]
      have hend : (m ++ [chr ' '] ++ u ++ [0]).length = m.length + 1 + u.length + 1 := by
        rw [List.length_append, ← hlen]
        rfl
      have hcr : CStrings.strchr (m ++ [chr ' '] ++ u ++ 0 :: (v ++ 0 :: r))
          (m.length + 1 + u.length + 1) (chr '\r') =
            .ok ((CText.strchr v (chr '\r')).map (m.length + 1 + u.length + 1 + ·)) := by
        have h := strchr_append (m ++ [chr ' '] ++ u ++ [0]) r hv (show chr '\r' ≠ 0 by decide)
        rwa [List.append_assoc (m ++ [chr ' '] ++ u) [0], hend] at h
      have hversion : (u ++ chr ' ' :: v).drop (u.length + 1) = v := by
        rw [← List.drop_drop, List.drop_left]
        rfl
      simp only [Option.map_some, hstore, ok_bind, hversion, hcr]
      cases hpos : CText.strchr v (chr '\r') with
      | none => rfl
      | some n =>
        have hn : n ≤ v.length := (List.idxOf?_eq_some_iff.mp hpos).1.le
        have hbefore := loadBefore_append (d := 0) (c := 0) (m ++ [chr ' '] ++ u) (0 :: r) hn
        rw [← hlen] at hbefore
        simp only [Option.map_some, hbefore, ok_bind]
        cases verOf ((0 :: v).getD n 0) with
        | none => rfl
        | some ver =>
          have hall : string (m ++ [chr ' '] ++ u ++ 0 :: (v ++ 0 :: r)) 0 =
              .ok (cstr ((m ++ chr ' ' :: w).take (m.length + 1 + u.length))) := by
            have hsize := congrArg List.length hblock
            have htake : (m ++ chr ' ' :: w).take (m.length + 1 + u.length) =
                m ++ [chr ' '] ++ u := by
              have h := congrArg (List.take (m.length + 1 + u.length)) hblock
              rw [List.take_append_of_le_length (by simp at hsize ⊢; omega)] at h
              rw [h, List.append_assoc u, ← List.append_assoc _ u, hlen, List.take_left]
            have h := string_eq [] (s := m ++ [chr ' '] ++ u ++ 0 :: (v ++ 0 :: r)) (by simp)
            rw [cstr_append_zero] at h
            rwa [htake]
          have huri : string (m ++ [chr ' '] ++ u ++ 0 :: (v ++ 0 :: r)) (m.length + 1) =
              .ok u := by
            have h := string_append (m ++ [chr ' ']) hu (v ++ 0 :: r)
            rwa [← List.append_assoc, List.length_append, List.length_singleton] at h
          have hver : string (m ++ [chr ' '] ++ u ++ 0 :: (v ++ 0 :: r))
              (m.length + 1 + u.length + 1) = .ok v := by
            have h := string_append (m ++ [chr ' '] ++ u ++ [0]) hv r
            rwa [List.append_assoc (m ++ [chr ' '] ++ u) [0], hend] at h
          have huri' : (u ++ chr ' ' :: v).take u.length = u := List.take_left
          simp only [hall, huri, hver, ok_bind, huri']
          rfl

/-- The functions agree on a line that has its line break. -/
theorem parseStatusLine_eq (msg : Msg) {startLine : List UInt8} (cr : ℕ)
    (hlen : 2 ≤ startLine.length) :
    parseStatusLine msg (startLine ++ [0]) startLine.length cr =
      scan (HttpMsg.parseStatusLine msg startLine cr) := by
  obtain ⟨l, c, d, rfl⟩ : ∃ l c d, startLine = l ++ [c, d] := by
    refine ⟨startLine.take (startLine.length - 2), startLine[startLine.length - 2],
      startLine[startLine.length - 1], ?_⟩
    refine (List.take_append_drop (startLine.length - 2) startLine).symm.trans (congrArg _ ?_)
    rw [List.drop_eq_getElem_cons (by omega), List.drop_eq_getElem_cons (by omega)]
    simp only [show startLine.length - 2 + 1 = startLine.length - 1 by omega]
    rw [List.drop_of_length_le (by omega)]
  have hback : (l ++ [c, d]).length - 2 = l.length := by simp
  have htake : (l ++ [c, d]).take l.length = l := List.take_left
  have hstore : store (l ++ [c, d] ++ [0]) l.length 0 = .ok (l ++ 0 :: [d, 0]) := by
    rw [List.append_assoc]
    exact store_append l [d, 0] c 0
  obtain ⟨r, hblock, h0⟩ := exists_cstr (s := l ++ 0 :: [d, 0]) (by simp)
  rw [cstr_append_zero] at hblock h0
  rw [parseStatusLine, HttpMsg.parseStatusLine, hback, hstore, htake]
  generalize l ++ 0 :: [d, 0] = block at hblock
  generalize cstr l = text at hblock h0 ⊢
  subst hblock
  have hsp1 := strchr_append [] r h0 (show chr ' ' ≠ 0 by decide)
  rw [List.nil_append, List.length_nil] at hsp1
  simp only [hsp1, ok_bind]
  cases hfirst : CText.strchr text (chr ' ') with
  | none => rfl
  | some n =>
    cases n with
    | zero => rfl
    | succ n =>
      obtain ⟨u, v, rfl, hu⟩ := exists_of_idxOf? hfirst
      have hv : 0 ∉ v := fun h => h0 (List.mem_append_right _ (.tail _ h))
      have hbefore : loadBefore (u ++ chr ' ' :: v ++ 0 :: r) (0 + (n + 1)) =
          .ok ((u ++ chr ' ' :: v).getD n 0) := by
        have hn : n < (u ++ chr ' ' :: v).length := by
          simp only [List.length_append]
          omega
        rw [Nat.zero_add, loadBefore, load, List.getElem?_append_left hn,
          List.getD_eq_getElem?_getD, List.getElem?_eq_getElem hn]
        rfl
      have hdrop : (u ++ chr ' ' :: v).drop (n + 1 + 1) = v := by
        rw [← hu, ← List.drop_drop, List.drop_left]
        rfl
      have hwhole : string (u ++ chr ' ' :: v ++ 0 :: r) 0 = .ok (u ++ chr ' ' :: v) :=
        string_append [] h0 r
      have hbehind : string (u ++ chr ' ' :: v ++ 0 :: r) (0 + (n + 1) + 1) = .ok v := by
        have h := string_append (u ++ [chr ' ']) hv r
        rw [List.length_append, hu, List.length_singleton, List.append_assoc] at h
        rw [Nat.zero_add, List.append_assoc]
        exact h
      simp only [Option.map_some, hbefore, ok_bind]
      cases verOf ((u ++ chr ' ' :: v).getD n 0) with
      | none => rfl
      | some ver =>
        simp only [hbehind, hdrop, ok_bind]
        cases (scanInt v).bind statusOf with
        | none => rfl
        | some status =>
          simp only [hwhole, ok_bind]
          rfl

theorem parseStartLine_eq (msg : Msg) : parseStartLine msg = scan (HttpMsg.parseStartLine msg) := by
  by_cases hbuf : msg.buf = []
  · rw [parseStartLine, HttpMsg.parseStartLine, if_pos hbuf, hbuf]
    rfl
  · have hpos := List.length_pos_of_ne_nil hbuf
    have hlen : lenMinusOne msg.buf = msg.buf.length - 1 := if_neg hbuf
    have hcr := memchr_append [] msg.buf (chr '\r') (Nat.sub_le msg.buf.length 1)
    rw [List.nil_append, List.length_nil] at hcr
    rw [parseStartLine, HttpMsg.parseStartLine, if_neg hbuf, hlen, hcr]
    cases hfound : CText.memchr msg.buf (chr '\r') (msg.buf.length - 1) with
    | none => rfl
    | some cr =>
      have hlt : cr + 1 < msg.buf.length := by
        rw [CText.memchr] at hfound
        have h := (List.idxOf?_eq_some_iff.mp hfound).1
        rw [List.length_take] at h
        omega
      have hload : load msg.buf (cr + 1) = .ok msg.buf[cr + 1] := by
        rw [load, List.getElem?_eq_getElem hlt]
      have hcopy : copy msg.buf 0 (cr + 2) = .ok (msg.buf.take (cr + 2) ++ [0]) := by
        rw [copy, bytes, if_pos (by omega)]
        rfl
      have hline : (msg.buf.take (cr + 2)).length = cr + 2 := List.length_take_of_le hlt
      simp only [Option.map_some, Nat.zero_add, ok_bind, hload, hcopy]
      by_cases hlf : msg.buf[cr + 1] = chr '\n'
      · rw [if_neg (not_not.mpr hlf), if_pos (by rw [List.getElem?_eq_getElem hlt, hlf])]
        cases msg.type with
        | request =>
          have h := parseRequestLine_eq msg (msg.buf.take (cr + 2)) cr
          rw [hline] at h
          exact h
        | response =>
          have h := @parseStatusLine_eq msg (msg.buf.take (cr + 2)) cr (by omega)
          rw [hline] at h
          exact h
      · rw [if_pos hlf, if_neg (by rw [List.getElem?_eq_getElem hlt]; simpa using hlf)]
        rfl

theorem scan_map {α β : Type} (x : Except Fault α) (f : α → β) :
    scan (x.map f) = scan x >>= fun a => .ok (f a) := by
  cases x <;> rfl

/-- The header text has no NUL, and ends before the received bytes do. -/
theorem headers_text {buf : List UInt8} {offset i : ℕ} (hfront : 2 ≤ offset)
    (hfound : CText.strstr (cstr (buf.drop (offset - 2))) (crlf ++ crlf) = some i) (hi : 2 ≤ i) :
    0 ∉ (buf.drop offset).take (i - 2) ∧ offset + (i - 2) ≤ buf.length := by
  obtain ⟨hat_, -⟩ := (strstr_eq_some (by decide)).mp hfound
  have hlen := hat_.length_le
  have hcstr : cstr (buf.drop (offset - 2)) <+: buf.drop (offset - 2) := List.takeWhile_prefix _
  have hle := hcstr.length_le
  simp only [List.length_drop, List.length_append, show crlf.length = 2 from rfl] at hlen hle
  refine ⟨fun h => ?_, by omega⟩
  have htext : (buf.drop offset).take (i - 2) = ((cstr (buf.drop (offset - 2))).take i).drop 2 := by
    obtain ⟨r, hr⟩ := hcstr
    have hdrop : buf.drop offset = (buf.drop (offset - 2)).drop 2 := by
      rw [List.drop_drop, Nat.sub_add_cancel hfront]
    rw [hdrop, ← List.drop_take, ← hr, List.take_append_of_le_length (by omega), List.drop_take,
      List.drop_take, hr]
  have hmem : (0 : UInt8) ∈ cstr (buf.drop (offset - 2)) :=
    List.mem_of_mem_take (List.mem_of_mem_drop (htext ▸ h))
  simpa using List.mem_takeWhile_imp hmem

theorem parseHeaders_eq {msg : Msg} (hoffset : msg.parsingOffset ≤ msg.buf.length) :
    parseHeaders msg = scan (HttpMsg.parseHeaders msg) := by
  by_cases hfront : msg.parsingOffset < 2
  · rw [parseHeaders, HttpMsg.parseHeaders, if_pos hfront]
    simp only [if_pos hfront, error_bind]
    rfl
  · obtain ⟨r, hblock, h0⟩ := exists_cstr (s := msg.buf.drop (msg.parsingOffset - 2) ++ [0])
      (by simp)
    rw [cstr_append_zero] at hblock h0
    have hfind : strstr (msg.buf ++ [0]) (msg.parsingOffset - 2) (crlf ++ crlf) =
        .ok ((CText.strstr (cstr (msg.buf.drop (msg.parsingOffset - 2))) (crlf ++ crlf)).map
          (msg.parsingOffset - 2 + ·)) := by
      have h := strstr_append (msg.buf.take (msg.parsingOffset - 2)) r h0
        (show 0 ∉ crlf ++ crlf by decide) (by decide)
      rwa [← hblock, ← List.append_assoc, List.take_append_drop,
        List.length_take_of_le (by omega)] at h
    rw [parseHeaders, HttpMsg.parseHeaders, if_neg hfront]
    simp only [if_neg hfront, pure_eq_ok, ok_bind, hfind]
    cases hfound : CText.strstr (cstr (msg.buf.drop (msg.parsingOffset - 2))) (crlf ++ crlf) with
    | none => rfl
    | some i =>
      simp only [Option.map_some]
      split
      · rfl
      · have hi : 2 ≤ i := by omega
        obtain ⟨htext, hend⟩ := headers_text (by omega) hfound hi
        have hsub : msg.parsingOffset - 2 + i - msg.parsingOffset = i - 2 := by omega
        have hcopy : copy (msg.buf ++ [0]) msg.parsingOffset (i - 2) =
            .ok ((msg.buf.drop msg.parsingOffset).take (i - 2) ++ [0]) := by
          rw [copy, bytes, if_pos (by rw [List.length_append]; omega),
            List.drop_append_of_le_length hoffset,
            List.take_append_of_le_length (by rw [List.length_drop]; omega)]
          rfl
        have hlen : ((msg.buf.drop msg.parsingOffset).take (i - 2)).length = i - 2 :=
          List.length_take_of_le (by rw [List.length_drop]; omega)
        have hloop := @headerLoop_eq _ _ (i - 2 + 1) msg.headers (i - 2) []
          htext (show 0 ∉ text ":" by decide) (by omega) (by omega)
        rw [hsub, hcopy, ok_bind, scan_map, hlen, ← hloop]
        rw [List.nil_append, List.length_nil]
        cases strtok (text ":") ((msg.buf.drop msg.parsingOffset).take (i - 2) ++ [0]) 0 with
        | error e => rfl
        | ok found => rfl

end Libuo.HttpParseBlocks
