import Libuo.HttpReqMatch

/-!
# Which bytes are read when a handler is tried

A request handler that is tried compares the copy of its pattern with the request line, both of
them strings in blocks of memory. It stays inside of them, and writes inside of the copy that it
makes. When a part of the pattern up to a closing brace is the rest of the line, there is no
difference, and the handler reads through a null pointer.
-/

namespace Libuo.HttpReqSafety
open CStrings OrderedMap
open CText hiding strchr
open HttpReqHandler (Fault Handler State Param Ptr create closeParams charAt storeParams Delimits
  strdiff_eq_none strdiff_eq_some strdiff_append strdiff_head charAt_append strchr_eq_some)
open HttpReqMatch (storeParams_eq)

/-- `*(s + i)`, for a pointer that is given by what is behind it in its block. -/
def load (s : List UInt8) (i : ℕ) : Except Fault UInt8 :=
  match s[i]? with
  | some c => .ok c
  | none => .error .outOfBounds

def strdiff : List UInt8 → List UInt8 → Except Fault (Option ℕ)
  | c :: s, d :: t =>
    if c = d then if c = 0 then .ok none else (strdiff s t).map (Option.map (· + 1))
    else .ok (some 0)
  | _, _ => .error .outOfBounds

/-- The string at a pointer, as `strlen`, `strdup` and the table of parameters read it. -/
def string : List UInt8 → Except Fault (List UInt8)
  | [] => .error .outOfBounds
  | c :: s => if c = 0 then .ok [] else (string s).map (c :: ·)

def strchr (c : UInt8) : List UInt8 → Except Fault (Option ℕ)
  | [] => .error .outOfBounds
  | d :: s =>
    if d = c then .ok (some 0)
    else if d = 0 then .ok none
    else (strchr c s).map (Option.map (· + 1))

/-- The check for an exact match or a prefix match. -/
def endsHere (pattern line : List UInt8) : Except Fault Bool := do
  match ← strdiff pattern line with
  | none => return true
  | some d => return (← load pattern d) = chr '*'

/-- The loop of `uo_http_req_handler_try` and the check behind it: `i`, the pointer into the
pattern, and the offset in the block of the request line. -/
def matchParams (line : List UInt8) : ℕ → List UInt8 → ℕ → Except Fault (Option (List Param))
  | 0, pattern, pos => do
    return if ← endsHere pattern (line.drop pos) then some [] else none
  | i + 1, pattern, pos => do
    match ← strdiff pattern (line.drop pos) with
    | none => .error .nullPointer
    | some d =>
      if (← load pattern d) ≠ chr '{' then return none
      else
        let name ← string (pattern.drop (d + 1))
        let rest := pattern.drop (d + (← string (pattern.drop d)).length + 1)
        match ← strchr (← load rest 0) (line.drop (pos + d)) with
        | none => return none
        | some k =>
          return (← matchParams line i rest (pos + d + k)).map
            (⟨name, pos + d, pos + d + k⟩ :: ·)

/-- `uo_http_req_handler_try`. -/
def tryHandler (handler : Handler) (line : List UInt8) (st : State) :
    Except Fault (State × Bool) :=
  if handler.paramCount = 0 then do
    return (st, ← endsHere handler.reqPattern line)
  else do
    match ← matchParams line handler.paramCount handler.reqPattern 0 with
    | none => return (st, false)
    | some params =>
      let first := (params.head?.map Param.start).getD 0
      let buf := st.heap.length
      let value ← string (line.drop first)
      let st ← storeParams buf first params
        { st with
          heap := st.heap ++ [value ++ [0]]
          refstack := buf :: st.refstack }
      return (st, true)

variable {s t u line pattern : List UInt8} {c : UInt8} {i d pos : ℕ} {params : List Param}
  {handler : Handler} {st : State}

theorem strdiff_eq (hs : 0 ∈ s) (ht : 0 ∉ t) :
    strdiff s (t ++ [0]) = .ok (HttpReqHandler.strdiff (cstr s) t) := by
  induction s generalizing t with
  | nil => simp at hs
  | cons c s ih =>
    by_cases hc : c = 0
    · subst hc
      have hnil : cstr (0 :: s) = [] := rfl
      rw [hnil]
      cases t with
      | nil => rfl
      | cons d t =>
        have hd : (0 : UInt8) ≠ d := fun h => ht (h ▸ .head _)
        rw [List.cons_append, strdiff, if_neg hd]
        rfl
    · have hcons : cstr (c :: s) = c :: cstr s := List.takeWhile_cons_of_pos (by simpa using hc)
      rw [hcons]
      cases t with
      | nil =>
        rw [List.nil_append, strdiff, if_neg hc]
        rfl
      | cons d t =>
        rw [List.cons_append, strdiff, HttpReqHandler.strdiff]
        by_cases hd : c = d
        · rw [if_pos hd, if_neg hc, if_pos hd,
            ih ((List.mem_cons.mp hs).resolve_left (Ne.symm hc)) fun h => ht (.tail _ h)]
          rfl
        · rw [if_neg hd, if_neg hd]

theorem string_eq (h : 0 ∈ s) : string s = .ok (cstr s) := by
  induction s with
  | nil => simp at h
  | cons c s ih =>
    by_cases hc : c = 0
    · subst hc
      rfl
    · have hcons : cstr (c :: s) = c :: cstr s := List.takeWhile_cons_of_pos (by simpa using hc)
      rw [string, if_neg hc, ih ((List.mem_cons.mp h).resolve_left (Ne.symm hc)), hcons]
      rfl

theorem strchr_eq (ht : 0 ∉ t) (c : UInt8) :
    strchr c (t ++ [0]) = .ok (HttpReqHandler.strchr t c) := by
  induction t with
  | nil =>
    rw [List.nil_append, strchr, HttpReqHandler.strchr]
    by_cases hc : c = 0
    · rw [if_pos hc.symm, if_pos hc]
      rfl
    · rw [if_neg (Ne.symm hc), if_pos rfl, if_neg hc]
      rfl
  | cons d t ih =>
    have hd : d ≠ 0 := fun h => ht (h ▸ .head _)
    rw [List.cons_append, strchr, ih fun h => ht (.tail _ h), HttpReqHandler.strchr,
      HttpReqHandler.strchr]
    by_cases hdc : d = c
    · subst hdc
      rw [if_pos rfl, if_neg hd, CText.strchr, List.idxOf?_cons, if_pos (beq_self_eq_true d)]
    · rw [if_neg hdc, if_neg hd, CText.strchr, CText.strchr, List.idxOf?_cons]
      by_cases hc : c = 0
      · simp [hc, Except.map]
      · simp [hc, hdc, Except.map]

theorem load_eq (h : 0 ∈ s) (hd : d ≤ (cstr s).length) : load s d = .ok (charAt (cstr s) d) := by
  obtain ⟨r, hs, -⟩ := exists_cstr h
  rw [load, charAt]
  rcases Nat.lt_or_eq_of_le hd with hlt | rfl
  · have hget : s[d]? = some (cstr s)[d] := by
      conv_lhs => rw [hs]
      rw [List.getElem?_append_left hlt, List.getElem?_eq_getElem hlt]
    rw [hget, List.getD_eq_getElem _ _ hlt]
  · have hget : (cstr s ++ 0 :: r)[(cstr s).length]? = some 0 := by simp
    rw [← hs] at hget
    rw [hget, List.getD_eq_default _ _ (Nat.le_refl _)]

theorem strdiff_le (h : HttpReqHandler.strdiff s t = some d) : d ≤ s.length := by
  obtain ⟨l, u, v, rfl, rfl, -, -⟩ := strdiff_eq_some h
  rw [List.length_append]
  exact Nat.le_add_right _ _

theorem endsHere_eq (hs : 0 ∈ s) (ht : 0 ∉ t) :
    endsHere s (t ++ [0]) = .ok (HttpReqHandler.endsHere (cstr s) t) := by
  rw [endsHere, strdiff_eq hs ht, HttpReqHandler.endsHere]
  cases hd : HttpReqHandler.strdiff (cstr s) t with
  | none => rfl
  | some d =>
    change (load s d >>= fun c => pure (decide (c = chr '*'))) = _
    rw [load_eq hs (strdiff_le hd)]
    rfl

/-- What is behind the first NUL. -/
def rest (pattern : List UInt8) : List UInt8 := pattern.drop ((cstr pattern).length + 1)

theorem count_rest (h : 0 ∈ pattern) : pattern.count 0 = (rest pattern).count 0 + 1 := by
  obtain ⟨r, hs, h0⟩ := exists_cstr h
  have hrest : rest pattern = r := by
    rw [rest]
    conv_lhs =>
      arg 2
      rw [hs]
    rw [← List.drop_drop, List.drop_left]
    rfl
  rw [hrest, hs, List.count_append, List.count_cons_self, List.count_eq_zero.mpr h0, Nat.zero_add]

theorem cstr_drop (h : d ≤ (cstr pattern).length) (hzero : 0 ∈ pattern) :
    cstr (pattern.drop d) = (cstr pattern).drop d ∧ 0 ∈ pattern.drop d := by
  obtain ⟨r, hs, h0⟩ := exists_cstr hzero
  have hdrop : pattern.drop d = (cstr pattern).drop d ++ 0 :: r := by
    conv_lhs => rw [hs]
    exact List.drop_append_of_le_length h
  rw [hdrop, cstr_append_zero]
  exact ⟨cstr_eq fun h => h0 (List.mem_of_mem_drop h), by simp⟩

theorem charAt_cstr (s : List UInt8) : charAt (cstr s) 0 = charAt s 0 := by
  cases s with
  | nil => rfl
  | cons c s =>
    by_cases hc : c = 0
    · subst hc
      rfl
    · rw [show cstr (c :: s) = c :: cstr s from List.takeWhile_cons_of_pos (by simpa using hc)]
      rfl

theorem lt_of_charAt (h : charAt s d = chr '{') : d < s.length := by
  by_contra hle
  rw [charAt, List.getD_eq_default _ _ (Nat.le_of_not_lt hle)] at h
  exact absurd h (by decide)

/-- One round of the loop, over the first part of the pattern. -/
theorem matchParams_succ (h : 0 ∈ pattern) :
    HttpReqHandler.matchParams line (i + 1) pattern pos =
      match HttpReqHandler.strdiff (cstr pattern) (line.drop pos) with
      | none => .error .nullPointer
      | some d =>
        if charAt (cstr pattern) d ≠ chr '{' then .ok none
        else
          match HttpReqHandler.strchr (line.drop (pos + d)) (charAt (rest pattern) 0) with
          | none => .ok none
          | some k =>
            (HttpReqHandler.matchParams line i (rest pattern) (pos + d + k)).map fun params =>
              params.map (⟨(cstr pattern).drop (d + 1), pos + d, pos + d + k⟩ :: ·) := by
  rw [HttpReqHandler.matchParams]
  cases hd : HttpReqHandler.strdiff (cstr pattern) (line.drop pos) with
  | none => rfl
  | some d =>
    by_cases hat : charAt (cstr pattern) d = chr '{'
    · have hlt := lt_of_charAt hat
      have hlen : d + (cstr (pattern.drop d)).length + 1 = (cstr pattern).length + 1 := by
        rw [(cstr_drop hlt.le h).1, List.length_drop]
        omega
      simp only [hlen, (cstr_drop hlt h).1]
      rfl
    · simp only [ne_eq, hat, not_false_eq_true, if_true]

/-- The loop over the blocks is the loop over the strings, which keeps to the first NUL of each. -/
theorem matchParams_eq (hcount : i < pattern.count 0) (hline : 0 ∉ line)
    (hpos : pos ≤ line.length) :
    matchParams (line ++ [0]) i pattern pos = HttpReqHandler.matchParams line i pattern pos := by
  induction i generalizing pattern pos with
  | zero =>
    have hzero : 0 ∈ pattern := List.count_pos_iff.mp hcount
    have hdrop : 0 ∉ line.drop pos := fun h => hline (List.mem_of_mem_drop h)
    rw [matchParams, List.drop_append_of_le_length hpos, endsHere_eq hzero hdrop,
      HttpReqHandler.matchParams]
    rfl
  | succ i ih =>
    have hzero : 0 ∈ pattern := List.count_pos_iff.mp (by omega)
    have hrest : i < (rest pattern).count 0 := by
      have := count_rest hzero
      omega
    have hdrop (n : ℕ) : 0 ∉ line.drop n := fun h => hline (List.mem_of_mem_drop h)
    rw [matchParams, List.drop_append_of_le_length hpos, strdiff_eq hzero (hdrop pos),
      matchParams_succ hzero]
    cases hd : HttpReqHandler.strdiff (cstr pattern) (line.drop pos) with
    | none => rfl
    | some d =>
      have hle : pos + d ≤ line.length := by
        obtain ⟨l, u, v, rfl, -, ht, -⟩ := strdiff_eq_some hd
        have := congrArg List.length ht
        rw [List.length_drop, List.length_append] at this
        omega
      change (load pattern d >>= fun c => if c ≠ chr '{' then _ else _) = _
      rw [load_eq hzero (strdiff_le hd)]
      by_cases hat : charAt (cstr pattern) d = chr '{'
      · have hlt := lt_of_charAt hat
        have hlen : d + (cstr (pattern.drop d)).length + 1 = (cstr pattern).length + 1 := by
          rw [(cstr_drop hlt.le hzero).1, List.length_drop]
          omega
        have hload : load (rest pattern) 0 = .ok (charAt (rest pattern) 0) := by
          rw [load_eq (List.count_pos_iff.mp (by omega)) (Nat.zero_le _), charAt_cstr]
        change (if charAt (cstr pattern) d ≠ chr '{' then _ else _) = _
        simp only [ne_eq, hat, not_true, if_false]
        rw [string_eq (cstr_drop hlt hzero).2, string_eq (cstr_drop hlt.le hzero).2,
          (cstr_drop hlt hzero).1]
        change (load (pattern.drop _) 0 >>= fun c => _) = _
        rw [hlen]
        change (load (rest pattern) 0 >>= fun c => _) = _
        rw [hload, List.drop_append_of_le_length hle]
        change (strchr _ (line.drop (pos + d) ++ [0]) >>= fun found => _) = _
        rw [strchr_eq (hdrop (pos + d))]
        cases hk : HttpReqHandler.strchr (line.drop (pos + d)) (charAt (rest pattern) 0) with
        | none => rfl
        | some k =>
          have hend : pos + d + k ≤ line.length := by
            obtain ⟨v, w, hvw, hv, -⟩ := strchr_eq_some.mp hk
            have := congrArg List.length hvw
            rw [List.length_drop, List.length_append] at this
            omega
          change (matchParams (line ++ [0]) i (rest pattern) (pos + d + k) >>= fun params => _) = _
          rw [ih hrest hend]
          simp only
          cases HttpReqHandler.matchParams line i (rest pattern) (pos + d + k) <;> rfl
      · change (if charAt (cstr pattern) d ≠ chr '{' then _ else _) = _
        simp only [ne_eq, hat, not_false_eq_true, if_true]
        rfl

/-- A part of the pattern up to a closing brace is the rest of the line where the two are
compared: at the beginning, or behind the values of other parameters. -/
def Null : ℕ → List UInt8 → List UInt8 → Prop
  | 0, _, _ => False
  | i + 1, pattern, u =>
    u = cstr pattern ∨ ∃ l name v w, cstr pattern = l ++ chr '{' :: name ∧ u = l ++ (v ++ w) ∧
      (v ++ w).head? ≠ some (chr '{') ∧ Delimits (charAt (rest pattern) 0) v w ∧
      Null i (rest pattern) w

theorem strdiff_brace {l name v : List UInt8} (h : v.head? ≠ some (chr '{')) :
    HttpReqHandler.strdiff (l ++ chr '{' :: name) (l ++ v) = some l.length ∧
      charAt (l ++ chr '{' :: name) l.length = chr '{' := by
  rw [strdiff_append, strdiff_head (by simpa using Ne.symm h), charAt_append]
  exact ⟨congrArg some (Nat.zero_add _), rfl⟩

/-- Behind the first difference, the value is what is in front of the delimiter. -/
theorem null_succ {l name v : List UInt8} (hl : cstr pattern = l ++ chr '{' :: name)
    (hhead : v.head? ≠ some (chr '{')) : Null (i + 1) pattern (l ++ v) ↔
      ∃ x w, v = x ++ w ∧ Delimits (charAt (rest pattern) 0) x w ∧ Null i (rest pattern) w := by
  have hdiff := (@strdiff_brace l name _ hhead).1
  rw [Null]
  constructor
  · rintro (h | ⟨l', name', x, w, hl', hu, hhead', hdelim, hnull⟩)
    · rw [hl] at h
      rw [strdiff_eq_none.mpr h.symm] at hdiff
      cases hdiff
    · have hdiff' := (@strdiff_brace l' name' _ hhead').1
      rw [← hl', ← hu, hl, hdiff] at hdiff'
      obtain ⟨rfl, rfl⟩ := List.append_inj hu (Option.some.inj hdiff')
      exact ⟨x, w, rfl, hdelim, hnull⟩
  · rintro ⟨x, w, rfl, hdelim, hnull⟩
    exact .inr ⟨l, name, x, w, hl, rfl, hhead, hdelim, hnull⟩

/-- The loop ends without an error if and only if there is always a difference. -/
theorem matchParams_ok (hcount : i < pattern.count 0) :
    (∃ r, HttpReqHandler.matchParams line i pattern pos = .ok r) ↔
      ¬ Null i pattern (line.drop pos) := by
  induction i generalizing pattern pos with
  | zero => exact ⟨fun _ => id, fun _ => ⟨_, rfl⟩⟩
  | succ i ih =>
    have hzero : 0 ∈ pattern := List.count_pos_iff.mp (by omega)
    have hrest : i < (rest pattern).count 0 := by
      have := count_rest hzero
      omega
    rw [matchParams_succ hzero]
    cases hd : HttpReqHandler.strdiff (cstr pattern) (line.drop pos) with
    | none =>
      refine iff_of_false (fun ⟨r, h⟩ => by cases h) fun h => h (.inl ?_)
      exact (strdiff_eq_none.mp hd).symm
    | some d =>
      obtain ⟨l, u, v, rfl, hl, hv, hhead⟩ := strdiff_eq_some hd
      have hat := charAt_append l u
      rw [← hl] at hat
      by_cases hbrace : charAt (cstr pattern) l.length = chr '{'
      · obtain ⟨name, rfl⟩ : ∃ name, u = chr '{' :: name := by
          cases u with
          | nil => exact absurd (hat.symm.trans hbrace) (by decide)
          | cons c name => exact ⟨name, by rw [← hat.symm.trans hbrace]; rfl⟩
        have hdrop : line.drop (pos + l.length) = v := by
          rw [← List.drop_drop, hv, List.drop_left]
        rw [hv, null_succ hl (by simpa using Ne.symm hhead)]
        simp only [ne_eq, hbrace, not_true, if_false, hdrop]
        cases hk : HttpReqHandler.strchr v (charAt (rest pattern) 0) with
        | none =>
          refine iff_of_true ⟨_, rfl⟩ ?_
          rintro ⟨x, w, hx, hdelim, -⟩
          rw [strchr_eq_some.mpr ⟨x, w, hx, rfl, hdelim⟩] at hk
          cases hk
        | some k =>
          obtain ⟨x, w, rfl, rfl, hdelim⟩ := strchr_eq_some.mp hk
          have hrestdrop : line.drop (pos + l.length + x.length) = w := by
            rw [← List.drop_drop, hdrop, List.drop_left]
          have hnull : (∃ x' w', x ++ w = x' ++ w' ∧ Delimits (charAt (rest pattern) 0) x' w' ∧
              Null i (rest pattern) w') ↔ Null i (rest pattern) w := by
            constructor
            · rintro ⟨x', w', hx, hdelim', hnull⟩
              rwa [(hdelim.unique hdelim' hx).2]
            · exact fun hnull => ⟨x, w, rfl, hdelim, hnull⟩
          rw [hnull, ← hrestdrop, ← ih hrest]
          simp only
          cases HttpReqHandler.matchParams line i (rest pattern) (pos + l.length + x.length) with
          | error e =>
            refine iff_of_false ?_ ?_
            · rintro ⟨r, h⟩
              cases h
            · rintro ⟨r, h⟩
              cases h
          | ok r => exact iff_of_true ⟨_, rfl⟩ ⟨_, rfl⟩
      · refine iff_of_true ⟨_, if_pos hbrace⟩ ?_
        rintro (h | ⟨l', name, x, w, hl', hu, hhead', -⟩)
        · rw [strdiff_eq_none.mpr h.symm] at hd
          cases hd
        · obtain ⟨hdiff, hat'⟩ := @strdiff_brace l' name _ hhead'
          rw [← hl', ← hu, hd] at hdiff
          rw [← hl', ← Option.some.inj hdiff] at hat'
          exact hbrace hat'

theorem matchParams_place
    (h : HttpReqHandler.matchParams line i pattern pos = .ok (some params)) :
    ∀ p ∈ params, pos ≤ p.start ∧ p.start ≤ p.stop ∧
      (pos ≤ line.length → p.stop ≤ line.length) := by
  induction i generalizing pattern pos params with
  | zero =>
    rw [HttpReqHandler.matchParams] at h
    split at h
    · rw [← Option.some.inj (Except.ok.inj h)]
      simp
    · cases Except.ok.inj h
  | succ i ih =>
    rw [HttpReqHandler.matchParams] at h
    cases hd : HttpReqHandler.strdiff (cstr pattern) (line.drop pos) with
    | none =>
      rw [hd] at h
      cases h
    | some d =>
      simp only [hd] at h
      split at h
      · cases Except.ok.inj h
      · split at h
        · cases Except.ok.inj h
        · rename_i k hk
          unfold Except.map at h
          split at h
          · cases h
          · rename_i found hmore
            obtain ⟨params', rfl, rfl⟩ := Option.map_eq_some_iff.mp (Except.ok.inj h)
            have hinside : pos ≤ line.length → pos + d + k ≤ line.length := by
              intro hpos
              obtain ⟨l, u, v, rfl, -, hv, -⟩ := strdiff_eq_some hd
              obtain ⟨x, w, hx, rfl, -⟩ := strchr_eq_some.mp hk
              have hlen := congrArg List.length hv
              have hlen' := congrArg List.length hx
              simp only [List.length_drop, List.length_append] at hlen hlen'
              omega
            intro p hp
            rcases List.mem_cons.mp hp with rfl | hp
            · exact ⟨Nat.le_add_right _ _, Nat.le_add_right _ _, hinside⟩
            · obtain ⟨hstart, hstop, hle⟩ := ih hmore p hp
              exact ⟨by omega, hstop, fun hpos => hle (hinside hpos)⟩

/-- The pattern of a handler that is created has a NUL for each parameter, and two more. -/
theorem count_closeParams {fuel n : ℕ} (h : closeParams fuel s = .ok (t, n)) (hs : 0 ∉ s) :
    t.count 0 = n := by
  induction fuel generalizing s t n with
  | zero =>
    obtain ⟨rfl, rfl⟩ := Prod.mk.inj (Except.ok.inj h)
    exact List.count_eq_zero.mpr hs
  | succ fuel ih =>
    rw [closeParams] at h
    split at h
    · obtain ⟨rfl, rfl⟩ := Prod.mk.inj (Except.ok.inj h)
      exact List.count_eq_zero.mpr hs
    · split at h
      · cases h
      · rename_i i _ _ j _
        unfold Except.map at h
        split at h
        · cases h
        · rename_i r hr
          obtain ⟨rfl, rfl⟩ := Prod.mk.inj (Except.ok.inj h)
          have htake : 0 ∉ s.take (i + j) := fun h0 => hs (List.mem_of_mem_take h0)
          rw [List.count_append, List.count_eq_zero.mpr htake, List.count_cons_self, Nat.zero_add,
            ih hr fun h0 => hs (List.mem_of_mem_drop h0)]

theorem count_create (h : create s = .ok handler) (hs : 0 ∉ s) :
    handler.reqPattern.count 0 = handler.paramCount + 2 := by
  rw [create] at h
  unfold Except.map at h
  split at h
  · cases h
  · rename_i r hr
    rw [← Except.ok.inj h, List.count_append, count_closeParams hr hs]
    rfl

/-- Over the blocks, a handler does what it does with strings. -/
theorem tryHandler_eq (hcount : handler.paramCount < handler.reqPattern.count 0)
    (hline : 0 ∉ line) (st : State) :
    tryHandler handler (line ++ [0]) st = HttpReqHandler.tryHandler handler line st := by
  rw [tryHandler, HttpReqHandler.tryHandler]
  by_cases hparams : handler.paramCount = 0
  · rw [if_pos hparams, if_pos hparams, endsHere_eq (List.count_pos_iff.mp (by omega)) hline]
    rfl
  · rw [if_neg hparams, if_neg hparams, matchParams_eq hcount hline (Nat.zero_le _)]
    cases hm : HttpReqHandler.matchParams line handler.paramCount handler.reqPattern 0 with
    | error e => rfl
    | ok found =>
      cases found with
      | none => rfl
      | some params =>
        have hfirst : (params.head?.map Param.start).getD 0 ≤ line.length := by
          cases params with
          | nil => exact Nat.zero_le _
          | cons p params =>
            obtain ⟨-, hstop, hle⟩ := matchParams_place hm p (.head _)
            exact hstop.trans (hle (Nat.zero_le _))
        have hdrop : 0 ∉ line.drop ((params.head?.map Param.start).getD 0) := fun h =>
          hline (List.mem_of_mem_drop h)
        change (string ((line ++ [0]).drop _) >>= fun value => _) = _
        rw [List.drop_append_of_le_length hfirst, string_eq (by simp), cstr_append_zero,
          cstr_eq hdrop]
        change (storeParams _ _ _ _ >>= fun st => pure (st, true)) = Except.map _ _
        cases storeParams st.heap.length ((params.head?.map Param.start).getD 0) params _ <;> rfl

theorem tryHandler_ok (hcount : handler.paramCount < handler.reqPattern.count 0)
    (hline : 0 ∉ line) (st : State) : (∃ r, tryHandler handler (line ++ [0]) st = .ok r) ↔
      ¬ Null handler.paramCount handler.reqPattern line := by
  rw [tryHandler_eq hcount hline, HttpReqHandler.tryHandler]
  by_cases hparams : handler.paramCount = 0
  · rw [if_pos hparams, hparams]
    exact iff_of_true ⟨_, rfl⟩ id
  · have hloop := @matchParams_ok line _ _ 0 hcount
    rw [List.drop_zero] at hloop
    rw [if_neg hparams, ← hloop]
    cases hm : HttpReqHandler.matchParams line handler.paramCount handler.reqPattern 0 with
    | error e =>
      refine iff_of_false ?_ ?_
      · rintro ⟨r, h⟩
        cases h
      · rintro ⟨r, h⟩
        cases h
    | ok found =>
      refine iff_of_true ?_ ⟨_, rfl⟩
      cases found with
      | none => exact ⟨_, rfl⟩
      | some params =>
        have hstop : ∀ p ∈ params, p.stop - (params.head?.map Param.start).getD 0 <
            (line.drop ((params.head?.map Param.start).getD 0) ++ [0]).length := by
          intro p hp
          have hle := (matchParams_place hm p hp).2.2 (Nat.zero_le _)
          rw [List.length_append, List.length_drop, List.length_singleton]
          omega
        change ∃ r, Except.map _ (storeParams _ _ _ _) = _
        rw [storeParams_eq hstop]
        exact ⟨_, rfl⟩

/-- A request line does not make a handler that has been created read or write outside of the
pattern, the line and the copy, nor through a null pointer, if and only if no part of the pattern
up to a closing brace is the rest of the line where it is compared. -/
theorem tryHandler_safe_iff (hcreate : create pattern = .ok handler) (hpattern : 0 ∉ pattern)
    (hline : 0 ∉ line) (st : State) : (∃ r, tryHandler handler (line ++ [0]) st = .ok r) ↔
      ¬ Null handler.paramCount handler.reqPattern line := by
  have hcount : handler.paramCount < handler.reqPattern.count 0 := by
    have := count_create hcreate hpattern
    omega
  exact tryHandler_ok hcount hline st

/-- The handler of the pattern `GET /a/{id}`. -/
def user : Handler := ⟨text "GET /a/\x7bid" ++ [0, 0, 0], 1⟩

theorem tryHandler_safe_iff_user : create (text "GET /a/{id}") = .ok user ∧
    ∃ r, tryHandler user (text "GET /a/7" ++ [0]) ⟨[], [], []⟩ = .ok r := by
  have hcreate : create (text "GET /a/{id}") = .ok user := rfl
  refine ⟨hcreate, (tryHandler_safe_iff hcreate (by decide) (by decide) _).mpr ?_⟩
  rintro (h | ⟨_, _, _, _, _, _, _, _, h⟩)
  · exact absurd h (by decide)
  · exact h

theorem not_safe_user : create (text "GET /a/{id}") = .ok user ∧
    tryHandler user (text "GET /a/\x7bid" ++ [0]) ⟨[], [], []⟩ = .error .nullPointer :=
  ⟨rfl, by decide⟩

end Libuo.HttpReqSafety
