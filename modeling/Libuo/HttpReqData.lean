import Libuo.HttpMsg
import Libuo.JsonDecodeWrites
import Libuo.JsonMembers

/-!
# The data of a request by name

A value from the body of a request is copied to a block of its own, with the name behind it, and is
found by that name from then on. The place of the name is counted from the end of the decoded text
of a string, but from the length of the name itself for any other value.
-/

namespace Libuo.HttpReqData
open CStrings CText HttpMsg Json JsonMembers
open JsonDecode (Run storesAt)

/-- An access outside of a block, or what has stopped the decoder or a search. -/
inductive Fault where
  | outside
  | json (e : JsonDecode.Fault)
  deriving DecidableEq

/-- `block[i] = c`. -/
def store (block : List UInt8) (w : ℕ × UInt8) : Except Fault (List UInt8) :=
  if w.1 < block.length then .ok (block.set w.1 w.2) else .error .outside

def storeAll : List UInt8 → List (ℕ × UInt8) → Except Fault (List UInt8)
  | block, [] => .ok block
  | block, w :: ws => (store block w).bind fun block => storeAll block ws

/-- `memcpy`, to a place in the block. -/
def memcpy (block : List UInt8) (p : ℕ) (bytes : List UInt8) : Except Fault (List UInt8) :=
  storeAll block (storesAt p bytes)

/-- The first `n` bytes at a place. -/
def bytesAt (s : List UInt8) (p n : ℕ) : Except Fault (List UInt8) :=
  if p + n ≤ s.length then .ok ((s.drop p).take n) else .error .outside

/-- The text at a place, if there is a NUL behind it. -/
def cstringAt (block : List UInt8) (p : ℕ) : Except Fault (List UInt8) :=
  if 0 ∈ block.drop p then .ok (cstring (block.drop p)) else .error .outside

/-- What a search reads may lie outside of the body. -/
def search {α : Type} (x : Scan α) : Except Fault α := x.mapError fun e => .json (.stop e)

/-- `uo_strdiff`: what is left of the first text. -/
def strdiff : List UInt8 → List UInt8 → Option (List UInt8)
  | [], [] => none
  | c :: s, d :: t => if c = d then strdiff s t else some (c :: s)
  | s, _ => some s

def isprefix (pre str : List UInt8) : Bool :=
  match strdiff pre str with
  | none => true
  | some diff => diff = []

/-- The part of `uo_http_conn` that is used here, with the buffer around the body and its NUL.
`reqData` has the texts of its keys and the indices of the blocks with the values. The blocks are
those that have been pushed to the `refstack` of the request. -/
structure HttpConn where
  httpReq : Msg
  before : List UInt8
  behind : List UInt8
  reqData : List (List UInt8 × ℕ)
  blocks : List (List UInt8)

/-- The connection with a block that is found by a name. -/
def HttpConn.kept (c : HttpConn) (name block : List UInt8) : HttpConn :=
  { c with
    blocks := c.blocks ++ [block]
    reqData := OrderedMap.set strings c.reqData name c.blocks.length }

/-- What follows in the block behind the value, which has been stored up to `p`. -/
def HttpConn.keep (c : HttpConn) (block key : List UInt8) (p : ℕ) :
    Except Fault (HttpConn × Option ℕ) := do
  let block ← store block (p, 0)
  let block ← memcpy block (p + 1) key
  let block ← store block (p + 1 + key.length, 0)
  let name ← cstringAt block (p + 1)
  pure (c.kept name block, some c.blocks.length)

/-- The text of a string is decoded to the start of the block. -/
def HttpConn.decode (c : HttpConn) (block s key : List UInt8) (jsonValue jsonLen : ℕ) :
    Except Fault (HttpConn × Option ℕ) := do
  let run := JsonDecode.decodeUtf8 s jsonValue jsonLen
  let block ← storeAll block run.stores
  match run.result with
  | .error e => .error (.json e)
  | .ok none => pure ({ c with blocks := c.blocks ++ [block] }, none)
  | .ok (some p) => c.keep block key p

/-- What `uo_http_conn_get_req_data` does with a value that has been found. The block has any
bytes before something is stored there. -/
def HttpConn.take (c : HttpConn) (junk : ℕ → UInt8) (s key : List UInt8) (jsonValue jsonLen : ℕ) :
    Except Fault (HttpConn × Option ℕ) := do
  let block := (List.range (jsonLen + 1 + key.length + 1)).map junk
  let block ← memcpy block 0 (← bytesAt s jsonValue jsonLen)
  if (← search (load s jsonValue)) = chr '"' then c.decode block s key jsonValue jsonLen
  else c.keep block key key.length

/-- The search in a body, which is followed by its NUL. -/
def HttpConn.findInJson (c : HttpConn) (junk : ℕ → UInt8) (fuel : ℕ) (s key : List UInt8) :
    Except Fault (HttpConn × Option ℕ) := do
  match ← search (findValue s key fuel c.before.length) with
  | none => pure (c, none)
  | some jsonValue =>
    match ← search (findEnd s fuel jsonValue) with
    | none => pure (c, none)
    | some jsonValueEnd => c.take junk s key jsonValue (jsonValueEnd - jsonValue)

/-- `uo_http_conn_get_req_data`, and the data that is returned as the index of its block. -/
def HttpConn.getReqData (c : HttpConn) (junk : ℕ → UInt8) (fuel : ℕ) (key : List UInt8) :
    Except Fault (HttpConn × Option ℕ) :=
  match OrderedMap.get strings c.reqData key with
  | some data => pure (c, some data)
  | none =>
    match c.httpReq.body, getHeader c.httpReq (text "content-type") with
    | some body, some contentType =>
      if isprefix (text "application/json") contentType then
        c.findInJson junk fuel (c.before ++ (body ++ 0 :: c.behind)) key
      else pure (c, none)
    | _, _ => pure (c, none)

/-- The text that the caller reads from the data. -/
def HttpConn.textOf (c : HttpConn) (data : ℕ) : Option (List UInt8) :=
  c.blocks[data]?.bind fun block => (cstringAt block 0).toOption

/-- Calls with any names that return, one after the other. -/
inductive Calls : HttpConn → HttpConn → Prop
  | start (c : HttpConn) : Calls c c
  | call {c c' c'' : HttpConn} {junk : ℕ → UInt8} {fuel : ℕ} {key : List UInt8} {data : Option ℕ} :
      Calls c c' → 0 ∉ key → c'.getReqData junk fuel key = .ok (c'', data) → Calls c c''

variable {block a b l l' key name : List UInt8} {w w' : List (ℕ × UInt8)} {p n : ℕ}
variable {c c' c₁ c₂ : HttpConn} {junk : ℕ → UInt8} {data : ℕ}

@[simp] theorem ok_bind {α β : Type} (a : α) (f : α → Except Fault β) :
    ((Except.ok a : Except Fault α) >>= f) = f a := rfl

@[simp] theorem search_ok {α : Type} (a : α) : search (.ok a : Scan α) = .ok a := rfl

theorem search_eq_ok {α : Type} {x : Scan α} {a : α} (h : search x = .ok a) : x = .ok a := by
  cases x with
  | error e => cases h
  | ok b => exact congrArg _ (Except.ok.inj h)

theorem storeAll_append (block : List UInt8) (w w' : List (ℕ × UInt8)) :
    storeAll block (w ++ w') = storeAll block w >>= fun block => storeAll block w' := by
  induction w generalizing block with
  | nil => rfl
  | cons x w ih =>
    rw [List.cons_append, storeAll, storeAll]
    cases store block x with
    | error e => rfl
    | ok block => exact ih block

theorem storeAll_storesAt (h : l.length = l'.length) :
    storeAll (a ++ (l ++ b)) (storesAt a.length l') = .ok (a ++ (l' ++ b)) := by
  induction l' generalizing a l with
  | nil =>
    rw [List.eq_nil_of_length_eq_zero h]
    rfl
  | cons c l' ih =>
    obtain ⟨d, l, rfl⟩ := List.exists_cons_of_length_eq_add_one h
    have hlt : a.length < (a ++ (d :: l ++ b)).length := by simp
    have hset : (a ++ (d :: l ++ b)).set a.length c = (a ++ [c]) ++ (l ++ b) := by
      rw [List.set_append_right _ _ (Nat.le_refl _), Nat.sub_self]
      simp
    have hrest := ih (a := a ++ [c]) (l := l) (by simpa using h)
    rw [List.length_append, List.length_singleton] at hrest
    rw [storesAt, storeAll, store, if_pos hlt, hset]
    change storeAll ((a ++ [c]) ++ (l ++ b)) (storesAt (a.length + 1) l') = _
    rw [hrest]
    simp

theorem storeAll_outside (hp : p ≤ block.length) (h : block.length < p + l.length) :
    storeAll block (storesAt p l) = .error .outside := by
  induction l generalizing p block with
  | nil => exact absurd h (Nat.not_lt.mpr hp)
  | cons c l ih =>
    rw [storesAt, storeAll, store]
    rcases Nat.lt_or_ge p block.length with hlt | hge
    · rw [if_pos hlt]
      exact ih (by rw [List.length_set]; omega) (by
        rw [List.length_set]
        simp only [List.length_cons] at h
        omega)
    · rw [if_neg (Nat.not_lt.mpr hge)]
      rfl

theorem cstring_append (h : 0 ∉ l) (b : List UInt8) : cstring (l ++ 0 :: b) = l := by
  have hne : ∀ c ∈ l, decide (c ≠ 0) = true := fun c hc =>
    decide_eq_true (ne_of_mem_of_not_mem hc h)
  rw [cstring, List.takeWhile_append_of_pos hne]
  simp

theorem cstringAt_append (a : List UInt8) (h : 0 ∉ l) (b : List UInt8) :
    cstringAt (a ++ (l ++ 0 :: b)) a.length = .ok l := by
  rw [cstringAt, List.drop_left, if_pos (by simp), cstring_append h]

/-- The NUL, the name and its NUL fit into the block, or the call fails. -/
theorem keep_eq (hkey : 0 ∉ key) : c.keep block key p =
    if p + (key.length + 2) ≤ block.length then
      .ok (c.kept key (block.take p ++ 0 :: (key ++ 0 :: block.drop (p + (key.length + 2)))),
        some c.blocks.length)
    else .error .outside := by
  have hstores : storesAt p (0 :: (key ++ [0])) =
      (p, 0) :: (storesAt (p + 1) key ++ [(p + 1 + key.length, 0)]) := by
    rw [storesAt, JsonDecodeWrites.storesAt_append]
    rfl
  have hkeep : c.keep block key p = storeAll block (storesAt p (0 :: (key ++ [0]))) >>=
      fun block => cstringAt block (p + 1) >>= fun name =>
        pure (c.kept name block, some c.blocks.length) := by
    rw [hstores, storeAll, HttpConn.keep]
    cases store block (p, 0) with
    | error e => rfl
    | ok block =>
      change _ = storeAll block (storesAt (p + 1) key ++ [(p + 1 + key.length, 0)]) >>= _
      rw [storeAll_append, ok_bind, memcpy]
      cases storeAll block (storesAt (p + 1) key) with
      | error e => rfl
      | ok block =>
        rw [ok_bind, ok_bind, storeAll]
        cases store block (p + 1 + key.length, 0) <;> rfl
  rw [hkeep]
  split_ifs with h
  · have hlen : (block.take p).length = p := List.length_take_of_le (by omega)
    have hblock : block = block.take p ++ ((block.drop p).take (key.length + 2) ++
        block.drop (p + (key.length + 2))) := by
      rw [← List.drop_drop, List.take_append_drop, List.take_append_drop]
    have hroom : ((block.drop p).take (key.length + 2)).length = (0 :: (key ++ [0])).length := by
      simp
      omega
    have hstored := storeAll_storesAt (a := block.take p)
      (b := block.drop (p + (key.length + 2))) hroom
    rw [← hblock, hlen] at hstored
    have hname := cstringAt_append (block.take p ++ [0]) hkey (block.drop (p + (key.length + 2)))
    rw [List.length_append, hlen, List.length_singleton] at hname
    rw [hstored, ok_bind]
    simp only [List.cons_append, List.append_assoc, List.nil_append] at hname ⊢
    rw [hname]
    rfl
  · rcases Nat.lt_or_ge block.length p with hlt | hge
    · rw [storesAt, storeAll, store, if_neg (by omega)]
      rfl
    · rw [storeAll_outside hge (by simp; omega)]
      rfl

variable {s u r pre post : List UInt8}

/-- The new block, after the text of the value has been copied to it. -/
theorem copied (junk : ℕ → UInt8) (l : List UInt8) (n : ℕ) :
    ∃ tail : List UInt8, tail.length = n ∧
      memcpy ((List.range (l.length + n)).map junk) 0 l = .ok (l ++ tail) := by
  obtain ⟨block, hblock⟩ : ∃ block, block = (List.range (l.length + n)).map junk := ⟨_, rfl⟩
  have hlen : block.length = l.length + n := by simp [hblock]
  refine ⟨block.drop l.length, by rw [List.length_drop, hlen, Nat.add_sub_cancel_left], ?_⟩
  have hstored := @storeAll_storesAt [] (block.drop l.length)
    (block.take l.length) l (List.length_take_of_le (by omega))
  rw [List.nil_append, List.take_append_drop] at hstored
  rw [← hblock]
  exact hstored

theorem bytesAt_at (h : At s p (l ++ r)) (hp : p ≤ s.length) : bytesAt s p l.length = .ok l := by
  have hlen : s.length - p = l.length + r.length := by
    rw [← List.length_drop, h, List.length_append]
  rw [bytesAt, if_pos (by omega), h, List.take_left]

/-- The decoded text of a string replaces the copy, with the name behind it. -/
theorem take_string (c : HttpConn) (junk : ℕ → UInt8) (hkey : 0 ∉ key) :
    ∃ tail, c.take junk (pre ++ (encodeUtf8 (some u) ++ post)) key pre.length
        (encodeUtf8 (some u)).length =
      .ok (c.kept key (u ++ 0 :: (key ++ 0 :: tail)), some c.blocks.length) := by
  obtain ⟨-, -, -, hdecode⟩ := JsonStrings.encodeUtf8_spec pre u post
  have hat := at_append pre (encodeUtf8 (some u) ++ post)
  have hquote : At (pre ++ (encodeUtf8 (some u) ++ post)) pre.length
      (chr '"' :: (u.flatMap encodeByte ++ [chr '"'] ++ post)) := by
    simpa [encodeUtf8] using hat
  have hlen : (encodeUtf8 (some u)).length = (u.flatMap encodeByte).length + 2 := by
    simp [encodeUtf8]
  have hle := JsonStrings.length_le_encode u
  obtain ⟨tail, htail, hcopied⟩ := copied junk (encodeUtf8 (some u)) (1 + key.length + 1)
  obtain ⟨block, hblock⟩ : ∃ block, block = encodeUtf8 (some u) ++ tail := ⟨_, rfl⟩
  have hroom : u.length + (key.length + 2) ≤ block.length := by
    rw [hblock, List.length_append]
    omega
  have hstored := @storeAll_storesAt [] (block.drop u.length)
    (block.take u.length) u (List.length_take_of_le (by omega))
  rw [List.nil_append, List.take_append_drop, List.length_nil] at hstored
  refine ⟨(u ++ block.drop u.length).drop (u.length + (key.length + 2)), ?_⟩
  rw [HttpConn.take, bytesAt_at hat (by simp), ok_bind, Nat.add_assoc, Nat.add_assoc,
    ← Nat.add_assoc 1, hcopied, ok_bind, load_at hquote, search_ok, ok_bind, if_pos rfl,
    HttpConn.decode, JsonDecodeWrites.decodeUtf8_storesAt hdecode, ← hblock]
  change (storeAll block (storesAt 0 u) >>= fun block => c.keep block key u.length) = _
  rw [hstored, ok_bind, List.nil_append, keep_eq hkey, if_pos (by simp; omega), List.take_left]

/-- The copy of any other value is cut off, or continued, at the length of the name. -/
theorem take_other (c : HttpConn) (junk : ℕ → UInt8) (h : At s p (l ++ r)) (hp : p ≤ s.length)
    {d : UInt8} (hl : l.head? = some d) (hd : d ≠ chr '"') (hkey : 0 ∉ key) :
    ∃ tail : List UInt8, tail.length = key.length + 2 ∧ c.take junk s key p l.length =
      if key.length ≤ l.length then
        .ok (c.kept key ((l ++ tail).take key.length ++
          0 :: (key ++ 0 :: (l ++ tail).drop (key.length + (key.length + 2)))),
          some c.blocks.length)
      else .error .outside := by
  obtain ⟨l', rfl⟩ : ∃ l', l = d :: l' := List.head?_eq_some_iff.mp hl
  obtain ⟨tail, htail, hcopied⟩ := copied junk (d :: l') (1 + key.length + 1)
  refine ⟨tail, by omega, ?_⟩
  rw [HttpConn.take, bytesAt_at h hp, ok_bind, Nat.add_assoc, Nat.add_assoc, ← Nat.add_assoc 1,
    hcopied, ok_bind, load_at h, search_ok, ok_bind, if_neg hd, keep_eq hkey, List.length_append,
    htail]
  split_ifs with hroom hlen hlen
  · rfl
  · omega
  · omega
  · rfl

/-- What a call may change for a name that has not been asked for. -/
inductive Grown (c : HttpConn) (key : List UInt8) : HttpConn → Option ℕ → Prop
  | same : Grown c key c none
  | dropped (block : List UInt8) : Grown c key { c with blocks := c.blocks ++ [block] } none
  | kept (block : List UInt8) : Grown c key (c.kept key block) (some c.blocks.length)

variable {o : Option ℕ} {fuel jsonValue jsonLen : ℕ}

theorem exists_of_bind_ok {α β : Type} {x : Except Fault α} {f : α → Except Fault β} {y : β}
    (h : (x >>= f) = .ok y) : ∃ a, x = .ok a ∧ f a = .ok y := by
  cases x with
  | error e => cases h
  | ok a => exact ⟨a, rfl, h⟩

theorem keep_grown (hkey : 0 ∉ key) (h : c.keep block key p = .ok (c', o)) : Grown c key c' o := by
  rw [keep_eq hkey] at h
  split_ifs at h
  obtain ⟨rfl, rfl⟩ := Prod.mk.inj (Except.ok.inj h)
  exact .kept _

theorem take_grown (hkey : 0 ∉ key) (h : c.take junk s key jsonValue jsonLen = .ok (c', o)) :
    Grown c key c' o := by
  obtain ⟨bytes, -, h⟩ := exists_of_bind_ok h
  obtain ⟨block, -, h⟩ := exists_of_bind_ok h
  obtain ⟨d, -, h⟩ := exists_of_bind_ok h
  split_ifs at h
  · rw [HttpConn.decode] at h
    obtain ⟨block', -, h⟩ := exists_of_bind_ok h
    split at h
    · cases h
    · obtain ⟨rfl, rfl⟩ := Prod.mk.inj (Except.ok.inj h)
      exact .dropped _
    · exact keep_grown hkey h
  · exact keep_grown hkey h

theorem getReqData_found (h : OrderedMap.get strings c.reqData key = some data) :
    c.getReqData junk fuel key = .ok (c, some data) := by
  rw [HttpConn.getReqData, h]
  rfl

theorem getReqData_grown (hkey : 0 ∉ key) (hnone : OrderedMap.get strings c.reqData key = none)
    (h : c.getReqData junk fuel key = .ok (c', o)) : Grown c key c' o := by
  rw [HttpConn.getReqData, hnone] at h
  have hsame (h : (.ok (c, none) : Except Fault (HttpConn × Option ℕ)) = .ok (c', o)) :
      Grown c key c' o := by
    obtain ⟨rfl, rfl⟩ := Prod.mk.inj (Except.ok.inj h)
    exact .same
  simp only at h
  split at h
  · split_ifs at h
    · obtain ⟨found, -, h⟩ := exists_of_bind_ok h
      cases found with
      | none => exact hsame h
      | some jsonValue =>
        obtain ⟨ending, -, h⟩ := exists_of_bind_ok h
        cases ending with
        | none => exact hsame h
        | some jsonValueEnd => exact take_grown hkey h
    · exact hsame h
  · exact hsame h

/-- What all later states have in common with a state. -/
structure Extended (c c' : HttpConn) : Prop where
  httpReq : c'.httpReq = c.httpReq
  before : c'.before = c.before
  behind : c'.behind = c.behind
  blocks : c.blocks <+: c'.blocks
  reqData : ∀ key data, OrderedMap.get strings c.reqData key = some data →
    OrderedMap.get strings c'.reqData key = some data

theorem Extended.refl (c : HttpConn) : Extended c c :=
  ⟨rfl, rfl, rfl, List.prefix_refl _, fun _ _ h => h⟩

theorem Extended.trans {c₃ : HttpConn} (h : Extended c₁ c₂) (h' : Extended c₂ c₃) :
    Extended c₁ c₃ :=
  ⟨h'.httpReq.trans h.httpReq, h'.before.trans h.before, h'.behind.trans h.behind,
    h.blocks.trans h'.blocks, fun key data hget => h'.reqData key data (h.reqData key data hget)⟩

theorem strings_equals (k k' : List UInt8) : (strings.equals k k' = true) = (k = k') :=
  propext beq_iff_eq

theorem get_kept (c : HttpConn) (key block name : List UInt8) :
    OrderedMap.get strings (c.kept key block).reqData name =
      if key = name then some c.blocks.length else OrderedMap.get strings c.reqData name := by
  rw [HttpConn.kept, OrderedMap.get_set]
  simp only [strings_equals]

theorem Grown.extended (hnone : OrderedMap.get strings c.reqData key = none)
    (h : Grown c key c' o) : Extended c c' := by
  cases h with
  | same => exact .refl c
  | dropped block => exact ⟨rfl, rfl, rfl, List.prefix_append _ _, fun _ _ h => h⟩
  | kept block =>
    refine ⟨rfl, rfl, rfl, List.prefix_append _ _, fun name data hget => ?_⟩
    have hne : key ≠ name := by
      rintro rfl
      cases hnone.symm.trans hget
    rw [get_kept, if_neg hne, hget]

theorem getReqData_extended (hkey : 0 ∉ key) (h : c.getReqData junk fuel key = .ok (c', o)) :
    Extended c c' := by
  cases hget : OrderedMap.get strings c.reqData key with
  | none => exact (getReqData_grown hkey hget h).extended hget
  | some data =>
    rw [getReqData_found hget] at h
    obtain ⟨rfl, -⟩ := Prod.mk.inj (Except.ok.inj h)
    exact .refl c

theorem Calls.extended (h : Calls c c') : Extended c c' := by
  induction h with
  | start => exact .refl c
  | call _ hkey hcall ih => exact ih.trans (getReqData_extended hkey hcall)

theorem Extended.textOf (h : Extended c c') (ht : c.textOf data = some l) :
    c'.textOf data = some l := by
  obtain ⟨bs, hbs⟩ := h.blocks
  obtain ⟨block, hblock, ht⟩ := Option.bind_eq_some_iff.mp ht
  obtain ⟨hlt, -⟩ := List.getElem?_eq_some_iff.mp hblock
  have hget : c'.blocks[data]? = some block := by
    rw [← hbs, List.getElem?_append_left hlt, hblock]
  rw [HttpConn.textOf, hget, Option.bind_some, ht]

/-- The body is the text of a flat object with these members, and its type is JSON. -/
structure Requested (c : HttpConn) (ms : List Member) : Prop where
  body : c.httpReq.body = some (objectText ms)
  contentType : ∃ t, getHeader c.httpReq (text "content-type") = some t ∧
    text "application/json" <+: t
  nulFree : ∀ m ∈ ms, 0 ∉ m.1 ∧ NulFree m.2
  distinct : (ms.map Prod.fst).Nodup

variable {ms : List Member} {v : Arg}

def IsString (v : Arg) : Prop := ∃ u, v = .utf8 (some u)

/-- What a caller is to get for a value: the string itself, or the text of any other value. -/
def valueText : Arg → List UInt8
  | .utf8 (some u) => u
  | v => encode v

/-- After any calls, a call for the name returns this text without an access outside of the block,
and so does every later call for it. -/
def Answers (c : HttpConn) (name answer : List UInt8) : Prop :=
  ∀ junk c₁, Calls c c₁ → ∃ fuel c₂ data, c₁.getReqData junk fuel name = .ok (c₂, some data) ∧
    c₂.textOf data = some answer ∧ ∀ c₃, Calls c₂ c₃ → ∀ junk fuel,
      c₃.getReqData junk fuel name = .ok (c₃, some data) ∧ c₃.textOf data = some answer

theorem isprefix_of_prefix {t : List UInt8} (h : pre <+: t) : isprefix pre t = true := by
  obtain ⟨r, rfl⟩ := h
  induction pre with
  | nil => cases r <;> rfl
  | cons c pre ih =>
    rw [List.cons_append, isprefix, strdiff, if_pos rfl]
    exact ih

theorem Requested.extended (h : Requested c ms) (he : Extended c c') : Requested c' ms :=
  ⟨he.httpReq ▸ h.body, he.httpReq ▸ h.contentType, h.nulFree, h.distinct⟩

theorem valueText_eq (hv : ¬ IsString v) : valueText v = encode v := by
  cases v with
  | utf8 u =>
    cases u with
    | none => rfl
    | some u => exact absurd ⟨u, rfl⟩ hv
  | bool b => rfl
  | int64 n => rfl
  | uint64 n => rfl

theorem valueText_zero_not_mem (hv : NulFree v) : 0 ∉ valueText v := by
  by_cases hstring : IsString v
  · obtain ⟨u, rfl⟩ := hstring
    exact hv
  · obtain ⟨-, -, -, -, h0⟩ := exists_cons_encode hv
    rwa [valueText_eq hstring]

theorem exists_head_encode (hv : ¬ IsString v) :
    ∃ d, (encode v).head? = some d ∧ d ≠ chr '"' := by
  have hdigits (n : ℕ) : ∃ d, ((Nat.toDigits 10 n).map chr).head? = some d ∧ d ≠ chr '"' := by
    obtain ⟨d, l, hdl⟩ := List.exists_cons_of_ne_nil
      (show (Nat.toDigits 10 n).map chr ≠ [] by simp)
    refine ⟨d, by rw [hdl]; rfl, ?_⟩
    rintro rfl
    exact absurd (isdigit_toDigits n (chr '"') (by simp [hdl])) (by decide)
  cases v with
  | utf8 u =>
    cases u with
    | none => exact ⟨_, rfl, by decide⟩
    | some u => exact absurd ⟨u, rfl⟩ hv
  | bool b => cases b <;> exact ⟨_, rfl, by decide⟩
  | int64 n =>
    simp only [encode, encodeInt64]
    split_ifs
    · exact ⟨_, rfl, by decide⟩
    · exact hdigits _
  | uint64 n => exact hdigits _

/-- What a call does for the name of a member comes down to what it does with the value. -/
theorem getReqData_member (h : Requested c ms) (hm : (name, v) ∈ ms) (hname : NeedsNoEscaping name)
    (hnone : OrderedMap.get strings c.reqData name = none) :
    ∃ pre post, (∃ fuel, c.getReqData junk fuel name =
        c.take junk (pre ++ (encode v ++ post)) name pre.length (encode v).length) ∧
      ∀ fuel r, c.getReqData junk fuel name = .ok r →
        c.take junk (pre ++ (encode v ++ post)) name pre.length (encode v).length = .ok r := by
  obtain ⟨ms₁, ms₂, rfl⟩ := List.append_of_mem hm
  obtain ⟨t, ht, hjson⟩ := h.contentType
  have hne : ∀ m ∈ ms₁, m.1 ≠ name := by
    intro m hmem he
    have hdistinct := h.distinct
    rw [List.map_append, List.map_cons, List.nodup_append] at hdistinct
    exact hdistinct.2.2 m.1 (List.mem_map_of_mem hmem) name (by simp) he
  obtain ⟨⟨⟨rest, hrest⟩, ⟨n₁, hvalue⟩, hend⟩, -⟩ := findValue_object c.before c.behind _ h.nulFree
    name hname |>.imp_left fun hfirst => hfirst ms₁ v ms₂ rfl hne
  obtain ⟨n₂, hend⟩ := hend
  obtain ⟨pre, hpre⟩ : ∃ pre, pre = c.before ++ textBefore ms₁ name := ⟨_, rfl⟩
  have hs : c.before ++ (objectText (ms₁ ++ (name, v) :: ms₂) ++ 0 :: c.behind) =
      pre ++ (encode v ++ (rest ++ 0 :: c.behind)) := by
    rw [hrest, hpre]
    simp
  have hplace : c.before.length + (textBefore ms₁ name).length = pre.length := by
    rw [hpre, List.length_append]
  rw [hs, hplace] at hvalue hend
  have hcall (fuel : ℕ) : c.getReqData junk fuel name =
      c.findInJson junk fuel (pre ++ (encode v ++ (rest ++ 0 :: c.behind))) name := by
    rw [HttpConn.getReqData, hnone, h.body, ht]
    simp only [if_true, hs, isprefix_of_prefix hjson]
  refine ⟨pre, rest ++ 0 :: c.behind, ⟨max n₁ n₂, ?_⟩, fun fuel r hr => ?_⟩
  · rw [hcall, HttpConn.findInJson, JsonScanner.findValue_mono (Nat.le_max_left _ _) hvalue,
      search_ok, ok_bind]
    simp only [JsonScanner.findEnd_mono (Nat.le_max_right _ _) hend, search_ok, ok_bind,
      Nat.add_sub_cancel_left]
  · rw [hcall] at hr
    obtain ⟨found, hfound, hr⟩ := exists_of_bind_ok hr
    have hfound := JsonScanner.findValue_mono (Nat.le_max_left fuel n₁) (search_eq_ok hfound)
    rw [JsonScanner.findValue_mono (Nat.le_max_right fuel n₁) hvalue] at hfound
    obtain rfl := Except.ok.inj hfound
    obtain ⟨ending, hending, hr⟩ := exists_of_bind_ok hr
    have hending := JsonScanner.findEnd_mono (Nat.le_max_left fuel n₂) (search_eq_ok hending)
    rw [JsonScanner.findEnd_mono (Nat.le_max_right fuel n₂) hend] at hending
    obtain rfl := Except.ok.inj hending
    simpa only [Nat.add_sub_cancel_left] using hr

theorem encode_string {u : List UInt8} (hu : 0 ∉ u) :
    encode (.utf8 (some u)) = encodeUtf8 (some u) := by
  rw [encode, encodeUtf8Cstring, Option.map_some, cstring_eq hu]

/-- A string is taken whole, any other value if its text is as long as the name. -/
theorem take_member (c : HttpConn) (junk : ℕ → UInt8) (pre post : List UInt8) (hname : 0 ∉ name)
    (hv : NulFree v) (h : IsString v ∨ (encode v).length = name.length) :
    ∃ tail, c.take junk (pre ++ (encode v ++ post)) name pre.length (encode v).length =
      .ok (c.kept name (valueText v ++ 0 :: tail), some c.blocks.length) := by
  by_cases hstring : IsString v
  · obtain ⟨u, rfl⟩ := hstring
    obtain ⟨tail, htake⟩ := @take_string _ u pre post c junk hname
    rw [encode_string hv]
    exact ⟨name ++ 0 :: tail, htake⟩
  · obtain ⟨d, hd, hquote⟩ := exists_head_encode hstring
    obtain ⟨tail, -, htake⟩ := take_other c junk (at_append pre (encode v ++ post)) (by simp) hd
      hquote hname
    have hlen := h.resolve_left hstring
    rw [if_pos hlen.ge, ← hlen, List.take_left] at htake
    rw [valueText_eq hstring]
    exact ⟨_, htake⟩

theorem textOf_kept (c : HttpConn) (hl : 0 ∉ l) (tail : List UInt8) :
    (c.kept name (l ++ 0 :: tail)).textOf c.blocks.length = some l := by
  have htext := cstringAt_append [] hl tail
  rw [List.nil_append, List.length_nil] at htext
  rw [HttpConn.textOf, HttpConn.kept, List.getElem?_concat_length, Option.bind_some, htext]
  rfl

/-- The name has not been asked for, or its data have the text. -/
def Inv (c : HttpConn) (name answer : List UInt8) : Prop :=
  ∀ data, OrderedMap.get strings c.reqData name = some data → c.textOf data = some answer

theorem getReqData_first (h : Requested c ms) (hm : (name, v) ∈ ms) (hname : NeedsNoEscaping name)
    (hv : IsString v ∨ (encode v).length = name.length)
    (hnone : OrderedMap.get strings c.reqData name = none) :
    ∃ tail, (∃ fuel, c.getReqData junk fuel name =
        .ok (c.kept name (valueText v ++ 0 :: tail), some c.blocks.length)) ∧
      ∀ fuel r, c.getReqData junk fuel name = .ok r →
        r = (c.kept name (valueText v ++ 0 :: tail), some c.blocks.length) := by
  obtain ⟨h0, hfree⟩ := h.nulFree _ hm
  obtain ⟨pre, post, ⟨fuel, hcall⟩, hall⟩ := @getReqData_member _ _ junk _ _ h hm hname hnone
  obtain ⟨tail, htake⟩ := take_member c junk pre post h0 hfree hv
  refine ⟨tail, ⟨fuel, hcall.trans htake⟩, fun fuel r hr => ?_⟩
  exact (Except.ok.inj (htake.symm.trans (hall fuel r hr))).symm

theorem Calls.inv (h : Requested c ms) (hm : (name, v) ∈ ms) (hname : NeedsNoEscaping name)
    (hv : IsString v ∨ (encode v).length = name.length) (hinv : Inv c name (valueText v))
    (hcalls : Calls c c') : Inv c' name (valueText v) := by
  induction hcalls with
  | start => exact hinv
  | @call c₁ c₂ junk fuel key o hcalls hkey hcall ih =>
    have hext := getReqData_extended hkey hcall
    have hreq := h.extended hcalls.extended
    intro data hdata
    cases hold : OrderedMap.get strings c₁.reqData name with
    | some old =>
      obtain rfl := Option.some.inj ((hext.reqData name old hold).symm.trans hdata)
      exact hext.textOf (ih _ hold)
    | none =>
      by_cases hk : key = name
      · subst hk
        obtain ⟨tail, -, hall⟩ := @getReqData_first _ _ junk _ _ hreq hm hname hv hold
        obtain ⟨rfl, -⟩ := Prod.mk.inj (hall _ _ hcall)
        rw [get_kept, if_pos rfl] at hdata
        obtain rfl := Option.some.inj hdata
        exact textOf_kept c₁ (valueText_zero_not_mem (hreq.nulFree _ hm).2) tail
      · -- another name has been asked for
        have hstill : OrderedMap.get strings c₂.reqData name = none := by
          cases hget : OrderedMap.get strings c₁.reqData key with
          | some d =>
            rw [getReqData_found hget] at hcall
            obtain ⟨rfl, -⟩ := Prod.mk.inj (Except.ok.inj hcall)
            exact hold
          | none =>
            cases getReqData_grown hkey hget hcall with
            | same => exact hold
            | dropped block => exact hold
            | kept block => rw [get_kept, if_neg hk, hold]
        cases hstill.symm.trans hdata

theorem answers_of (h : Requested c ms) (hempty : c.reqData = []) (hm : (name, v) ∈ ms)
    (hname : NeedsNoEscaping name) (hv : IsString v ∨ (encode v).length = name.length) :
    Answers c name (valueText v) := by
  intro junk c₁ hcalls
  have hinv : Inv c₁ name (valueText v) := by
    refine hcalls.inv h hm hname hv fun data hdata => ?_
    rw [hempty] at hdata
    cases hdata
  have hreq := h.extended hcalls.extended
  have hfree := (hreq.nulFree _ hm).2
  -- a later call finds what the first has kept
  have hlater (c₂ : HttpConn) (data : ℕ)
      (hget : OrderedMap.get strings c₂.reqData name = some data)
      (htext : c₂.textOf data = some (valueText v)) (c₃ : HttpConn) (hcalls : Calls c₂ c₃)
      (junk : ℕ → UInt8) (fuel : ℕ) : c₃.getReqData junk fuel name = .ok (c₃, some data) ∧
        c₃.textOf data = some (valueText v) :=
    ⟨getReqData_found (hcalls.extended.reqData name data hget), hcalls.extended.textOf htext⟩
  cases hget : OrderedMap.get strings c₁.reqData name with
  | some data =>
    exact ⟨0, c₁, data, getReqData_found hget, hinv _ hget, hlater c₁ data hget (hinv _ hget)⟩
  | none =>
    obtain ⟨tail, ⟨fuel, hcall⟩, -⟩ := @getReqData_first _ _ junk _ _ hreq hm hname hv hget
    have htext := @textOf_kept _ name c₁ (valueText_zero_not_mem hfree) tail
    exact ⟨fuel, _, _, hcall, htext, hlater _ _ (by rw [get_kept, if_pos rfl]) htext⟩

/-- For any value but a string, the first call already fails when the lengths differ. -/
theorem length_of_answers (h : Requested c ms) (hempty : c.reqData = []) (hm : (name, v) ∈ ms)
    (hname : NeedsNoEscaping name) (hv : ¬ IsString v) (ha : Answers c name (valueText v)) :
    (encode v).length = name.length := by
  obtain ⟨fuel, c₂, data, hcall, htext, -⟩ := ha (fun _ => 0) c (.start c)
  obtain ⟨h0, hfree⟩ := h.nulFree _ hm
  have hnone : OrderedMap.get strings c.reqData name = none := by rw [hempty]; rfl
  obtain ⟨pre, post, -, hall⟩ := getReqData_member h hm hname hnone
  obtain ⟨d, hd, hquote⟩ := exists_head_encode hv
  obtain ⟨tail, -, htake⟩ := take_other c (fun _ => 0) (at_append pre (encode v ++ post))
    (by simp) hd hquote h0
  have hok := htake.symm.trans (hall fuel _ hcall)
  split_ifs at hok with hle
  obtain ⟨rfl, hdata⟩ := Prod.mk.inj (Except.ok.inj hok)
  obtain rfl := Option.some.inj hdata
  have hzero : 0 ∉ (encode v).take name.length := fun hmem =>
    valueText_eq hv ▸ valueText_zero_not_mem hfree <| List.mem_of_mem_take hmem
  rw [List.take_append_of_le_length hle, textOf_kept c hzero, valueText_eq hv] at htext
  have hlen := congrArg List.length (Option.some.inj htext)
  rw [List.length_take_of_le hle] at hlen
  exact hlen.symm

/-- A request with the only member `"a"`. -/
def onlyA (v : Arg) : HttpConn where
  httpReq := { create .request [] with
    headers := [(text "content-type", some (text "application/json"))]
    body := some (objectText [([chr 'a'], v)]) }
  before := []
  behind := []
  reqData := []
  blocks := []

theorem requested_onlyA (v : Arg) (hv : NulFree v) : Requested (onlyA v) [([chr 'a'], v)] where
  body := rfl
  contentType := ⟨_, rfl, List.prefix_refl _⟩
  nulFree := by simpa [chr] using hv
  distinct := by simp

end Libuo.HttpReqData
