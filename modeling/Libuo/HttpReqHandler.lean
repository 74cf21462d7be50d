import Libuo.HttpMsg
import Mathlib.Data.List.GetD

/-!
# Request handlers

A handler is made from a pattern such as `GET /posts/{title}/*`. It is tried on the method
and the URI of a request, and the texts in the places of the parameters are put into a
table.
-/

namespace Libuo.HttpReqHandler
open CStrings CText OrderedMap
open HttpMsg (strings)

/-- What a C program must not do. -/
inductive Fault where
  | assertion | nullPointer | outOfBounds
  deriving DecidableEq

/-- `uo_strdiff`: where the first string is different, if it is. -/
def strdiff : List UInt8 → List UInt8 → Option ℕ
  | [], [] => none
  | [], _ :: _ => some 0
  | _ :: _, [] => some 0
  | c :: s, d :: t => if c = d then (strdiff s t).map (· + 1) else some 0

/-- `strchr`, also for the NUL, which is behind the string. -/
def strchr (s : List UInt8) (c : UInt8) : Option ℕ :=
  if c = 0 then some s.length else CText.strchr s c

/-- The character at an offset of a string, or its NUL. -/
def charAt (s : List UInt8) (i : ℕ) : UInt8 := s.getD i 0

/-- The pattern of a handler is a block with a NUL for each brace that closes a parameter. -/
structure Handler where
  reqPattern : List UInt8
  paramCount : ℕ

/-- The loop of `uo_http_req_handler_create`, with what is left of the pattern. -/
def closeParams : ℕ → List UInt8 → Except Fault (List UInt8 × ℕ)
  | 0, s => .ok (s, 0)
  | fuel + 1, s =>
    match CText.strchr s (chr '{') with
    | none => .ok (s, 0)
    | some i =>
      match CText.strchr (s.drop i) (chr '}') with
      | none => .error .assertion
      | some j =>
        (closeParams fuel (s.drop (i + j + 1))).map fun r => (s.take (i + j) ++ 0 :: r.1, r.2 + 1)

/-- `uo_http_req_handler_create`. Each round of the loop is behind the last one. -/
def create (reqPattern : List UInt8) : Except Fault Handler :=
  (closeParams reqPattern.length reqPattern).map fun r => ⟨r.1 ++ [0, 0], r.2⟩

structure Ptr where
  block : ℕ
  offset : ℕ
  deriving DecidableEq

/-- What a handler works on: the blocks of the heap, the table of parameters, and the blocks
that are freed with the request. -/
structure State where
  heap : List (List UInt8)
  params : List (List UInt8 × Ptr)
  refstack : List ℕ
  deriving DecidableEq

/-- One entry of `param_ptrs`: the name of the parameter, and where its value starts and ends. -/
structure Param where
  name : List UInt8
  start : ℕ
  stop : ℕ
  deriving DecidableEq

/-- The request line ends as the pattern does, or it goes on where the pattern has an asterisk. -/
def endsHere (pattern line : List UInt8) : Bool :=
  match strdiff pattern line with
  | none => true
  | some d => charAt pattern d = chr '*'

/-- The loop of `uo_http_req_handler_try` and the check behind it. The first argument is
`i`, the second what is left of the pattern, the third where the request line is read. -/
def matchParams (line : List UInt8) : ℕ → List UInt8 → ℕ → Except Fault (Option (List Param))
  | 0, pattern, pos => .ok (if endsHere (cstr pattern) (line.drop pos) then some [] else none)
  | i + 1, pattern, pos =>
    match strdiff (cstr pattern) (line.drop pos) with
    | none => .error .nullPointer
    | some d =>
      if charAt (cstr pattern) d ≠ chr '{' then .ok none
      else
        let rest := pattern.drop (d + (cstr (pattern.drop d)).length + 1)
        match strchr (line.drop (pos + d)) (charAt rest 0) with
        | none => .ok none
        | some k =>
          (matchParams line i rest (pos + d + k)).map fun params =>
            params.map (⟨cstr (pattern.drop (d + 1)), pos + d, pos + d + k⟩ :: ·)

/-- The second loop: the copy is cut at the end of each value, and the value is stored. -/
def storeParams (buf first : ℕ) : List Param → State → Except Fault State
  | [], st => .ok st
  | p :: ps, st =>
    if p.stop - first < (st.heap.getD buf []).length then
      storeParams buf first ps
        { st with
          heap := st.heap.modify buf fun b => b.set (p.stop - first) 0
          params := set strings st.params p.name ⟨buf, p.start - first⟩ }
    else .error .outOfBounds

/-- `uo_http_req_handler_try`. -/
def tryHandler (handler : Handler) (line : List UInt8) (st : State) : Except Fault (State × Bool) :=
  if handler.paramCount = 0 then .ok (st, endsHere (cstr handler.reqPattern) line)
  else
    (matchParams line handler.paramCount handler.reqPattern 0).bind fun
      | none => .ok (st, false)
      | some params =>
        let first := (params.head?.map Param.start).getD 0
        let buf := st.heap.length
        (storeParams buf first params
          { st with
            heap := st.heap ++ [line.drop first ++ [0]]
            refstack := buf :: st.refstack }).map (·, true)

def State.text (st : State) (p : Ptr) : Option (List UInt8) :=
  st.heap[p.block]?.map fun b => cstr (b.drop p.offset)

def State.value (st : State) (name : List UInt8) : Option (List UInt8) :=
  (get strings st.params name).bind st.text

variable {s t l r u v : List UInt8} {c : UInt8} {d k : ℕ}

theorem strdiff_eq_none : strdiff s t = none ↔ s = t := by
  induction s generalizing t with
  | nil => cases t <;> simp [strdiff]
  | cons c s ih =>
    cases t with
    | nil => simp [strdiff]
    | cons d t =>
      by_cases hcd : c = d
      · simp [strdiff, hcd, ih]
      · simp [strdiff, hcd]

theorem strdiff_append (l s t : List UInt8) :
    strdiff (l ++ s) (l ++ t) = (strdiff s t).map (· + l.length) := by
  induction l with
  | nil => simp
  | cons c l ih =>
    rw [List.cons_append, List.cons_append, strdiff, if_pos rfl, ih, Option.map_map]
    congr 1

theorem strdiff_head (h : s.head? ≠ t.head?) : strdiff s t = some 0 := by
  cases s with
  | nil =>
    cases t with
    | nil => exact absurd rfl h
    | cons d t => rfl
  | cons c s =>
    cases t with
    | nil => rfl
    | cons d t => exact if_neg fun hcd => h (by rw [hcd]; rfl)

theorem strdiff_eq_some (h : strdiff s t = some d) :
    ∃ l u v, l.length = d ∧ s = l ++ u ∧ t = l ++ v ∧ u.head? ≠ v.head? := by
  induction s generalizing t d with
  | nil =>
    cases t with
    | nil => exact nomatch h
    | cons e t =>
      obtain rfl := Option.some.inj h
      exact ⟨[], [], e :: t, rfl, rfl, rfl, by simp⟩
  | cons c s ih =>
    cases t with
    | nil =>
      obtain rfl := Option.some.inj h
      exact ⟨[], c :: s, [], rfl, rfl, rfl, by simp⟩
    | cons e t =>
      rw [strdiff] at h
      split at h
      · rename_i hce
        obtain ⟨d', hd', rfl⟩ := Option.map_eq_some_iff.mp h
        obtain ⟨l, u, v, hl, rfl, rfl, hne⟩ := ih hd'
        exact ⟨c :: l, u, v, by simp [hl], rfl, by simp [hce], hne⟩
      · rename_i hce
        obtain rfl := Option.some.inj h
        exact ⟨[], c :: s, e :: t, rfl, rfl, rfl, by simpa using hce⟩

theorem charAt_zero (s : List UInt8) : charAt s 0 = s.head?.getD 0 := by
  cases s <;> rfl

theorem charAt_append (l s : List UInt8) : charAt (l ++ s) l.length = s.head?.getD 0 := by
  rw [charAt, List.getD_append_right _ _ _ _ le_rfl, Nat.sub_self]
  exact charAt_zero s

/-- A value in front of a delimiter; the NUL is the end of the line. -/
def Delimits (c : UInt8) (v w : List UInt8) : Prop :=
  if c = 0 then w = [] else c ∉ v ∧ w.head? = some c

theorem strchr_eq_some :
    strchr s c = some k ↔ ∃ v w, s = v ++ w ∧ v.length = k ∧ Delimits c v w := by
  unfold strchr Delimits
  split
  · rw [Option.some_inj]
    constructor
    · intro hk
      exact ⟨s, [], by simp, hk, rfl⟩
    · rintro ⟨v, w, rfl, hk, rfl⟩
      simpa using hk
  · rw [CText.strchr]
    constructor
    · intro hk
      obtain ⟨hlt, hget, hfirst⟩ := List.idxOf?_eq_some_iff.mp hk
      refine ⟨s.take k, s.drop k, (List.take_append_drop k s).symm,
        List.length_take_of_le hlt.le, fun hc => ?_, ?_⟩
      · obtain ⟨i, hi, hci⟩ := List.mem_take_iff_getElem.mp hc
        exact hfirst i (by omega) hci
      · rw [List.head?_drop, List.getElem?_eq_getElem hlt, hget]
    · rintro ⟨v, w, rfl, rfl, hc, hw⟩
      obtain ⟨w, rfl⟩ := List.head?_eq_some_iff.mp hw
      exact strchr_eq hc

theorem Delimits.unique {w v' w' : List UInt8} (h : Delimits c v w) (h' : Delimits c v' w')
    (he : v ++ w = v' ++ w') : v = v' ∧ w = w' := by
  have hlen : v.length = v'.length :=
    Option.some.inj ((strchr_eq_some.mpr ⟨v, w, rfl, rfl, h⟩).symm.trans
      (strchr_eq_some.mpr ⟨v', w', he, rfl, h'⟩))
  exact List.append_inj he hlen

theorem strdiff_at (hc : c ≠ 0) (hs : c ∉ l) (hr : c ∉ r) :
    strdiff (l ++ c :: r) t = some d ∧ charAt (l ++ c :: r) d = c ↔
      d = l.length ∧ ∃ u, t = l ++ u ∧ u.head? ≠ some c := by
  constructor
  · rintro ⟨hd, hat_⟩
    obtain ⟨l', u, v, rfl, hl, rfl, hne⟩ := strdiff_eq_some hd
    rw [hl, charAt_append] at hat_
    cases u with
    | nil => exact absurd hat_.symm hc
    | cons e u =>
      obtain rfl : e = c := hat_
      obtain ⟨rfl, -, rfl⟩ := (List.append_cons_inj_of_notMem hs hr).mp hl
      exact ⟨rfl, v, rfl, fun h => hne (by rw [h]; rfl)⟩
  · rintro ⟨rfl, u, rfl, hu⟩
    rw [strdiff_append, strdiff_head (by simpa using Ne.symm hu), charAt_append]
    simp

end Libuo.HttpReqHandler
