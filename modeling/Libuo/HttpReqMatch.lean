import Libuo.HttpReqPattern

/-!
# Request lines that match

A handler that has taken a request line has put its values into the table: with them the
pattern spells the line. One that has not has changed nothing.
-/

namespace Libuo.HttpReqMatch
open CStrings OrderedMap HttpReqHandler HttpReqPattern
open CText hiding strchr
open HttpMsg (strings)

/-- A handler is created from a pattern and tried. -/
def attempt (P : Pattern) (line : List UInt8) (st : State) : Except Fault (State × Bool) :=
  (create P.text).bind fun handler => tryHandler handler line st

variable {star : Bool} {lit line l u v w name : List UInt8} {ps : List Slot}
  {vs : List (List UInt8)} {pos buf first j : ℕ} {params : List Param} {p : Param} {st st' : State}
  {P : Pattern}

theorem placed_names (h : Fits star lit ps vs u) :
    (placed pos lit ps vs).map Param.name = ps.map Prod.fst := by
  induction ps generalizing lit vs u pos with
  | nil =>
    cases vs with
    | nil => rfl
    | cons v vs => exact h.elim
  | cons p ps ih =>
    cases vs with
    | nil => exact h.elim
    | cons v vs =>
      obtain ⟨w, -, -, -, h⟩ := h
      exact congrArg (p.1 :: ·) (ih h)

theorem fits_length (h : Fits star lit ps vs u) : vs.length = ps.length := by
  induction ps generalizing lit vs u with
  | nil =>
    cases vs with
    | nil => rfl
    | cons v vs => exact h.elim
  | cons p ps ih =>
    cases vs with
    | nil => exact h.elim
    | cons v vs =>
      obtain ⟨w, -, -, -, h⟩ := h
      exact congrArg (· + 1) (ih h)

theorem exists_value (h : Fits star lit ps vs u) (hp : p ∈ placed pos lit ps vs) :
    ∃ v, (p, v) ∈ (placed pos lit ps vs).zip vs := by
  have hnames : (placed pos lit ps vs).map Param.name = ps.map Prod.fst := placed_names h
  have hlen := congrArg List.length hnames
  rw [List.length_map, List.length_map, ← fits_length h] at hlen
  obtain ⟨i, hi, rfl⟩ := List.getElem_of_mem hp
  refine ⟨vs[i], ?_⟩
  rw [← List.getElem_zip (h := by simpa [hlen] using hi)]
  exact List.getElem_mem _

theorem placed_start_le : ∀ p ∈ placed pos lit ps vs, pos + lit.length ≤ p.start := by
  induction ps generalizing lit vs pos with
  | nil => simp [placed]
  | cons q ps ih =>
    cases vs with
    | nil => simp [placed]
    | cons v vs =>
      intro p hp
      rcases List.mem_cons.mp hp with rfl | hp
      · exact le_rfl
      · have := ih p hp
        omega

/-- A value is the part of the line between the start and the end of its parameter. -/
theorem placed_value (h : Fits star lit ps vs (line.drop pos)) (hpos : pos ≤ line.length) :
    ∀ e ∈ (placed pos lit ps vs).zip vs,
      e.1.stop = e.1.start + e.2.length ∧ e.1.stop ≤ line.length ∧ e.2 <+: line.drop e.1.start := by
  induction ps generalizing lit vs pos with
  | nil => simp [placed]
  | cons q ps ih =>
    cases vs with
    | nil => simp [placed]
    | cons v vs =>
      obtain ⟨w, hu, -, -, h⟩ := h
      have hlen := congrArg List.length hu
      simp only [List.length_drop, List.length_append] at hlen
      have hw : line.drop (pos + lit.length + v.length) = w := by
        rw [← List.drop_drop, ← List.drop_drop, hu, List.drop_left, List.drop_left]
      intro e he
      rcases List.mem_cons.mp he with rfl | he
      · refine ⟨rfl, by change pos + lit.length + v.length ≤ _; omega, ?_⟩
        change v <+: line.drop (pos + lit.length)
        rw [← List.drop_drop, hu, List.drop_left]
        exact List.prefix_append _ _
      · exact ih (hw ▸ h) (by omega) e he

/-- A value ends before the next one starts. -/
theorem placed_apart (h : Fits star lit ps vs u) :
    (placed pos lit ps vs).Pairwise fun p q => p.stop < q.start := by
  induction ps generalizing lit vs u pos with
  | nil => exact List.Pairwise.nil
  | cons q ps ih =>
    cases vs with
    | nil => exact List.Pairwise.nil
    | cons v vs =>
      obtain ⟨w, -, -, hdelim, h⟩ := h
      refine List.pairwise_cons.mpr ⟨fun r hr => ?_, ih h⟩
      have hstart := placed_start_le r hr
      refine lt_of_lt_of_le (Nat.lt_add_of_pos_right ?_) hstart
      by_contra hl
      obtain ⟨name, l⟩ := q
      obtain rfl : l = [] := List.length_eq_zero_iff.mp (by simpa using hl)
      -- an empty literal has the brace of the next parameter for a delimiter
      cases ps with
      | nil => simp [placed] at hr
      | cons q' ps =>
        cases vs with
        | nil => exact h.elim
        | cons v' vs =>
          obtain ⟨w', rfl, hhead, -⟩ := h
          have hbrace : Delimits (chr '{') v (v' ++ w') := hdelim
          rw [Delimits, if_neg (by decide)] at hbrace
          exact hhead hbrace.2

theorem placed_separate {q : Param} (h : Fits star lit ps vs u) (hp : p ∈ placed pos lit ps vs)
    (hq : q ∈ placed pos lit ps vs) : p = q ∨ p.stop < q.start ∨ q.stop < p.start := by
  have hapart : (placed pos lit ps vs).Pairwise fun p q => p.stop < q.start := placed_apart h
  rw [List.pairwise_iff_getElem] at hapart
  obtain ⟨i, hi, rfl⟩ := List.getElem_of_mem hp
  obtain ⟨k, hk, rfl⟩ := List.getElem_of_mem hq
  rcases lt_trichotomy i k with hik | rfl | hki
  · exact .inr (.inl (hapart i k hi hk hik))
  · exact .inl rfl
  · exact .inr (.inr (hapart k i hk hi hki))

/-- The copy of the line, cut at the ends of the values. -/
def cut (first : ℕ) (params : List Param) (b : List UInt8) : List UInt8 :=
  params.foldl (fun b p => b.set (p.stop - first) 0) b

/-- The table with the values. -/
def entered (buf first : ℕ) (params : List Param) (m : List (List UInt8 × Ptr)) :
    List (List UInt8 × Ptr) :=
  params.foldl (fun m p => set strings m p.name ⟨buf, p.start - first⟩) m

theorem getElem?_cut_of_ne (h : ∀ p ∈ params, p.stop - first ≠ j) (b : List UInt8) :
    (cut first params b)[j]? = b[j]? := by
  induction params generalizing b with
  | nil => rfl
  | cons p params ih =>
    rw [cut, List.foldl_cons]
    exact (ih (fun q hq => h q (.tail _ hq)) _).trans (List.getElem?_set_ne (h p (.head _)))

theorem getElem?_cut_zero {b : List UInt8} (h : b[j]? = some 0) :
    (cut first params b)[j]? = some 0 := by
  induction params generalizing b with
  | nil => exact h
  | cons p params ih =>
    refine ih ?_
    by_cases hj : p.stop - first = j
    · subst hj
      exact List.getElem?_set_self (List.getElem?_eq_some_iff.mp h).1
    · exact (List.getElem?_set_ne hj).trans h

theorem getElem?_cut (hp : p ∈ params) {b : List UInt8} (hb : p.stop - first < b.length) :
    (cut first params b)[p.stop - first]? = some 0 := by
  induction params generalizing b with
  | nil => exact nomatch hp
  | cons q params ih =>
    rcases List.mem_cons.mp hp with rfl | hp
    · rw [cut, List.foldl_cons]
      exact getElem?_cut_zero (List.getElem?_set_self hb)
    · exact ih hp (by rwa [List.length_set])

theorem get_entered_of_notMem (h : name ∉ params.map Param.name) (m : List (List UInt8 × Ptr)) :
    get strings (entered buf first params m) name = get strings m name := by
  induction params generalizing m with
  | nil => rfl
  | cons p params ih =>
    obtain ⟨hp, hps⟩ := not_or.mp (mt List.mem_cons.mpr h)
    rw [entered, List.foldl_cons]
    refine (ih hps _).trans ?_
    rw [get_set, if_neg]
    exact fun he => hp (beq_iff_eq.mp he).symm

theorem get_entered (hn : (params.map Param.name).Nodup) (hp : p ∈ params)
    (m : List (List UInt8 × Ptr)) :
    get strings (entered buf first params m) p.name = some ⟨buf, p.start - first⟩ := by
  induction params generalizing m with
  | nil => exact nomatch hp
  | cons q params ih =>
    obtain ⟨hq, hn⟩ := List.nodup_cons.mp hn
    rw [entered, List.foldl_cons]
    rcases List.mem_cons.mp hp with rfl | hp
    · refine (get_entered_of_notMem hq _).trans ?_
      rw [get_set, if_pos (strings.refl _)]
    · exact ih hn hp _

theorem modify_last {α : Type} (f : α → α) (l : List α) (a : α) :
    (l ++ [a]).modify l.length f = l ++ [f a] := by
  induction l with
  | nil => rfl
  | cons b l ih => simpa using ih

/-- The second loop writes within the copy. -/
theorem storeParams_eq {heap : List (List UInt8)} {b : List UInt8} {m : List (List UInt8 × Ptr)}
    {r : List ℕ} (h : ∀ p ∈ params, p.stop - first < b.length) :
    storeParams heap.length first params ⟨heap ++ [b], m, r⟩ =
      .ok ⟨heap ++ [cut first params b], entered heap.length first params m, r⟩ := by
  induction params generalizing b m with
  | nil => rfl
  | cons p params ih =>
    have hget : (heap ++ [b]).getD heap.length [] = b := by simp
    have hset : (heap ++ [b]).modify heap.length (fun b => b.set (p.stop - first) 0) =
        heap ++ [b.set (p.stop - first) 0] := modify_last _ _ _
    rw [storeParams]
    simp only [hget, hset, if_pos (h p (.head _))]
    refine ih fun q hq => ?_
    rw [List.length_set]
    exact h q (.tail _ hq)

/-- The state after a match. -/
def stored (line : List UInt8) (first : ℕ) (params : List Param) (st : State) : State where
  heap := st.heap ++ [cut first params (line.drop first ++ [0])]
  params := entered st.heap.length first params st.params
  refstack := st.heap.length :: st.refstack

theorem placed_stop_lt (h : Fits star lit ps vs (line.drop pos)) (hpos : pos ≤ line.length) :
    ∀ p ∈ placed pos lit ps vs, p.stop - (pos + lit.length) <
      (line.drop (pos + lit.length) ++ [0]).length := by
  intro p hp
  obtain ⟨v, hv⟩ := exists_value h hp
  have hstop : p.stop ≤ line.length := (placed_value h hpos _ hv).2.1
  simp only [List.length_append, List.length_drop, List.length_singleton]
  omega

theorem attempt_eq : attempt P line st = tryHandler P.handler line st := by
  rw [attempt, create_text]
  rfl

theorem matched : matchParams line P.handler.paramCount P.handler.reqPattern 0 =
    .ok (some params) ↔
      ∃ vs, Fits P.star P.first P.slots vs line ∧ params = placed 0 P.first P.slots vs :=
  matchParams_iff P.isLiteral P.isSlot

/-- A pattern without parameters stores nothing. -/
theorem tryHandler_nil (h : P.slots = []) : tryHandler P.handler line st =
    .ok (st, endsHere (P.first ++ asterisk P.star) line) := by
  rw [tryHandler, if_pos (by simp [Pattern.handler, h])]
  simp only [Pattern.handler, h, cstr_compiled_nil P.isLiteral.1]

theorem tryHandler_fits (hslots : P.slots ≠ []) (h : Fits P.star P.first P.slots vs line) :
    tryHandler P.handler line st =
      .ok (stored line P.first.length (placed 0 P.first P.slots vs) st, true) := by
  have hfirst : ((placed 0 P.first P.slots vs).head?.map Param.start).getD 0 = P.first.length := by
    obtain ⟨q, ps, hq⟩ := List.exists_cons_of_ne_nil hslots
    rw [hq] at h ⊢
    cases vs with
    | nil => exact h.elim
    | cons v vs => exact Nat.zero_add _
  have hstop : ∀ p ∈ placed 0 P.first P.slots vs,
      p.stop - P.first.length < (line.drop P.first.length ++ [0]).length := by
    have h : Fits P.star P.first P.slots vs (line.drop 0) := h
    simpa using placed_stop_lt h (Nat.zero_le _)
  rw [tryHandler, if_neg (by simpa [Pattern.handler] using hslots), matched.mpr ⟨vs, h, rfl⟩]
  simp only [Except.bind, hfirst, storeParams_eq hstop]
  rfl

theorem fits_of_tryHandler (h : tryHandler P.handler line st = .ok (st', true)) :
    ∃ vs, Fits P.star P.first P.slots vs line := by
  by_cases hslots : P.slots = []
  · rw [tryHandler_nil hslots] at h
    rw [hslots]
    exact ⟨[], (Prod.mk.inj (Except.ok.inj h)).2⟩
  · rw [tryHandler, if_neg (by simpa [Pattern.handler] using hslots)] at h
    cases hm : matchParams line P.handler.paramCount P.handler.reqPattern 0 with
    | error e => simp [hm, Except.bind] at h
    | ok r =>
      cases r with
      | none => simp [hm, Except.bind] at h
      | some params =>
        obtain ⟨vs, hfits, -⟩ := matched.mp hm
        exact ⟨vs, hfits⟩

/-- The request lines that a handler takes, and what it stores. -/
theorem attempt_true : attempt P line st = .ok (st', true) ↔
    ∃ vs, Fits P.star P.first P.slots vs line ∧
      st' = if P.slots = [] then st
        else stored line P.first.length (placed 0 P.first P.slots vs) st := by
  rw [attempt_eq]
  by_cases hslots : P.slots = []
  · simp only [tryHandler_nil hslots, hslots]
    constructor
    · intro h
      obtain ⟨rfl, hends⟩ := Prod.mk.inj (Except.ok.inj h)
      exact ⟨[], hends, rfl⟩
    · rintro ⟨vs, hfits, rfl⟩
      cases vs with
      | nil => rw [show endsHere _ _ = true from hfits]
      | cons v vs => exact hfits.elim
  · simp only [if_neg hslots]
    constructor
    · intro h
      obtain ⟨vs, hfits⟩ := fits_of_tryHandler h
      rw [tryHandler_fits hslots hfits] at h
      exact ⟨vs, hfits, (Prod.mk.inj (Except.ok.inj h)).1.symm⟩
    · rintro ⟨vs, hfits, rfl⟩
      exact tryHandler_fits hslots hfits

theorem attempt_false (h : attempt P line st = .ok (st', false)) : st' = st := by
  rw [attempt_eq, tryHandler] at h
  split at h
  · exact (Prod.mk.inj (Except.ok.inj h)).1.symm
  · cases hm : matchParams line P.handler.paramCount P.handler.reqPattern 0 with
    | error e => simp [hm, Except.bind] at h
    | ok r =>
      cases r with
      | none =>
        rw [hm] at h
        exact (Prod.mk.inj (Except.ok.inj h)).1.symm
      | some params =>
        rw [hm] at h
        simp only [Except.bind, Except.map] at h
        split at h
        · exact nomatch h
        · simp at h

theorem cstr_eq_of_getElem? {s : List UInt8} (h : ∀ i, (hi : i < v.length) → s[i]? = some v[i])
    (hv : 0 ∉ v) (hend : s[v.length]? = some 0) : CText.cstr s = v := by
  have htake : s.take v.length = v := by
    refine List.ext_getElem? fun i => ?_
    rw [List.getElem?_take]
    split
    · rename_i hi
      rw [h i hi, List.getElem?_eq_getElem hi]
    · rename_i hi
      rw [List.getElem?_eq_none (Nat.le_of_not_lt hi)]
  obtain ⟨hlt, hzero⟩ := List.getElem?_eq_some_iff.mp hend
  rw [← List.take_append_drop v.length s, htake, List.drop_eq_getElem_cons hlt, hzero,
    CText.cstr_append hv]
  exact List.append_nil _

/-- In the cut copy each value is a string. -/
theorem cstr_cut (hline : 0 ∉ line) (h : Fits star lit ps vs (line.drop pos))
    (hpos : pos ≤ line.length) (he : (p, v) ∈ (placed pos lit ps vs).zip vs) :
    CText.cstr ((cut (pos + lit.length) (placed pos lit ps vs)
      (line.drop (pos + lit.length) ++ [0])).drop (p.start - (pos + lit.length))) = v := by
  have hp : p ∈ placed pos lit ps vs := (List.of_mem_zip he).1
  have hstart := placed_start_le p hp
  obtain ⟨hstop, hle, hstarts⟩ := placed_value h hpos _ he
  simp only at hstop hle hstarts
  have hget : ∀ i (hi : i < v.length), getElem? line (p.start + i) = some v[i] := fun i hi => by
    rw [← List.getElem?_drop]
    obtain ⟨r, hr⟩ := hstarts
    rw [← hr, List.getElem?_append_left hi, List.getElem?_eq_getElem hi]
  refine cstr_eq_of_getElem? (fun i hi => ?_) (fun h0 => hline ?_) ?_
  · rw [List.getElem?_drop, getElem?_cut_of_ne, List.getElem?_append_left, List.getElem?_drop,
      ← hget i hi]
    · congr 1
      omega
    · rw [List.length_drop]
      omega
    · intro q hq
      obtain ⟨v', hv'⟩ := exists_value h hq
      have hq' : q.stop = q.start + v'.length := (placed_value h hpos _ hv').1
      have hqstart := placed_start_le q hq
      rcases placed_separate h hp hq with rfl | hlt | hlt <;> omega
  · exact List.mem_of_mem_drop (hstarts.subset h0)
  · have := getElem?_cut hp (placed_stop_lt h hpos p hp)
    rw [List.getElem?_drop, ← this]
    congr 1
    omega

/-- The pattern with values for its parameters, without the asterisk. -/
def body : List UInt8 → List Slot → List (List UInt8) → List UInt8
  | lit, (_, l) :: ps, v :: vs => lit ++ (v ++ body l ps vs)
  | lit, _, _ => lit

@[simp] theorem body_nil (lit : List UInt8) (vs : List (List UInt8)) : body lit [] vs = lit := by
  cases vs <;> rfl

@[simp] theorem body_cons (lit v : List UInt8) (p : Slot) (ps : List Slot)
    (vs : List (List UInt8)) : body lit (p :: ps) (v :: vs) = lit ++ (v ++ body p.2 ps vs) := rfl

/-- The pattern with each parameter replaced by what a function has for its name. -/
def fill (value : List UInt8 → Option (List UInt8)) : List UInt8 → List Slot → Option (List UInt8)
  | lit, [] => some lit
  | lit, (name, l) :: ps =>
    (value name).bind fun v => (fill value l ps).map fun r => lit ++ (v ++ r)

theorem fill_eq {value : List UInt8 → Option (List UInt8)} (h : vs.length = ps.length)
    (hvalue : ∀ e ∈ (ps.map Prod.fst).zip vs, value e.1 = some e.2) :
    fill value lit ps = some (body lit ps vs) := by
  induction ps generalizing lit vs with
  | nil => rfl
  | cons p ps ih =>
    cases vs with
    | nil => exact nomatch h
    | cons v vs =>
      have hv : value p.1 = some v := hvalue (p.1, v) (.head _)
      rw [fill, hv, Option.bind_some, ih (Nat.succ.inj h) fun e he => hvalue e (.tail _ he)]
      rfl

theorem endsHere_append (l s t : List UInt8) : endsHere (l ++ s) (l ++ t) = endsHere s t := by
  rw [endsHere, endsHere, strdiff_append]
  cases strdiff s t with
  | none => rfl
  | some d =>
    have : charAt (l ++ s) (d + l.length) = charAt s d := by
      rw [charAt, List.getD_append_right _ _ _ _ (Nat.le_add_left _ _), Nat.add_sub_cancel]
      rfl
    simp only [Option.map_some, this]

/-- A line that ends as a pattern does has the last literal, and text behind it only in the
place of an asterisk. -/
theorem tail_of_endsHere (h : chr '*' ∉ lit) (hends : endsHere (lit ++ asterisk star) u = true) :
    ∃ tail, u = lit ++ tail ∧ (star = false → tail = []) := by
  rw [endsHere] at hends
  cases hd : strdiff (lit ++ asterisk star) u with
  | none =>
    exact ⟨asterisk star, (strdiff_eq_none.mp hd).symm, fun hs => by rw [hs]; rfl⟩
  | some d =>
    rw [hd] at hends
    have hat : charAt (lit ++ asterisk star) d = chr '*' := of_decide_eq_true hends
    cases star with
    | false =>
      -- without an asterisk the difference cannot be at one
      rw [asterisk, if_neg Bool.false_ne_true, List.append_nil, charAt] at hat
      by_cases hlt : d < lit.length
      · rw [List.getD_eq_getElem _ _ hlt] at hat
        exact absurd (hat ▸ List.getElem_mem hlt) h
      · rw [List.getD_eq_default _ _ (Nat.le_of_not_lt hlt)] at hat
        exact absurd hat (by decide)
    | true =>
      obtain ⟨-, t, ht, -⟩ := (strdiff_at (r := []) (by decide) h List.not_mem_nil).mp ⟨hd, hat⟩
      exact ⟨t, ht, fun hs => absurd hs (by decide)⟩

theorem line_of_fits (h : Fits star lit ps vs u) (hlit : chr '*' ∉ lit)
    (hps : ∀ p ∈ ps, chr '*' ∉ p.2) :
    ∃ tail, u = body lit ps vs ++ tail ∧ (star = false → tail = []) := by
  induction ps generalizing lit vs u with
  | nil =>
    cases vs with
    | nil => exact tail_of_endsHere hlit h
    | cons v vs => exact h.elim
  | cons p ps ih =>
    cases vs with
    | nil => exact h.elim
    | cons v vs =>
      obtain ⟨w, rfl, -, -, h⟩ := h
      obtain ⟨tail, rfl, htail⟩ := ih h (hps p (.head _)) fun q hq => hps q (.tail _ hq)
      exact ⟨tail, by simp [body], htail⟩

theorem stored_value (hline : 0 ∉ line) (hn : (ps.map Prod.fst).Nodup)
    (h : Fits star lit ps vs line) (he : (p, v) ∈ (placed 0 lit ps vs).zip vs) :
    (stored line lit.length (placed 0 lit ps vs) st).value p.name = some v := by
  have hget : get strings (entered st.heap.length lit.length (placed 0 lit ps vs) st.params)
      p.name = some ⟨st.heap.length, p.start - lit.length⟩ :=
    get_entered (by rwa [placed_names h]) (List.of_mem_zip he).1 st.params
  have hdrop : Fits star lit ps vs (line.drop 0) := h
  have hcut := cstr_cut hline hdrop (Nat.zero_le _) he
  rw [Nat.zero_add] at hcut
  rw [State.value, stored, hget, Option.bind_some, State.text]
  simp [hcut]

theorem stored_get (h : Fits star lit ps vs line) (hname : name ∉ ps.map Prod.fst) :
    get strings (stored line lit.length (placed 0 lit ps vs) st).params name =
      get strings st.params name :=
  get_entered_of_notMem (by rwa [placed_names h]) _

/-- What a request line is if the handler has taken it: the pattern with the stored values, and
text behind it only in the place of an asterisk. The rest of the table is as before, and so
are the strings. -/
structure Taken (P : Pattern) (line : List UInt8) (st st' : State) : Prop where
  spelled : ∃ tail, (fill st'.value P.first P.slots).map (· ++ tail) = some line ∧
    (P.star = false → tail = [])
  params : ∀ name ∉ P.slots.map Prod.fst,
    get strings st'.params name = get strings st.params name
  heap : st.heap <+: st'.heap

/-- A handler that returns true has taken the line apart as its pattern says; one that returns
false has changed nothing. -/
theorem attempt_sound (P : Pattern) (line : List UInt8) (st st' : State) (b : Bool)
    (hn : (P.slots.map Prod.fst).Nodup) (hfirst : chr '*' ∉ P.first)
    (hslots : ∀ p ∈ P.slots, chr '*' ∉ p.2) (hline : 0 ∉ line)
    (h : attempt P line st = .ok (st', b)) : if b then Taken P line st st' else st' = st := by
  cases b with
  | false => exact attempt_false h
  | true =>
    obtain ⟨vs, hfits, rfl⟩ := attempt_true.mp h
    obtain ⟨tail, hbody, htail⟩ := line_of_fits hfits hfirst hslots
    by_cases hps : P.slots = []
    · rw [if_pos rfl, if_pos hps]
      refine ⟨⟨tail, ?_, htail⟩, fun _ _ => rfl, List.prefix_refl _⟩
      rw [hbody, hps]
      rfl
    · rw [if_pos rfl, if_neg hps]
      refine ⟨⟨tail, ?_, htail⟩, fun name hname => stored_get hfits hname, List.prefix_append _ _⟩
      rw [fill_eq (fits_length hfits), Option.map_some, ← hbody]
      intro e he
      have hnames : (placed 0 P.first P.slots vs).map Param.name = P.slots.map Prod.fst :=
        placed_names hfits
      rw [← hnames, List.zip_map_left] at he
      obtain ⟨⟨p, v⟩, hpv, rfl⟩ := List.mem_map.mp he
      exact stored_value hline hn hfits hpv

/-- The pattern `GET /{id}/*`. -/
def sample : Pattern where
  first := CText.text "GET /"
  slots := [(CText.text "id", CText.text "/")]
  star := true
  isLiteral := by decide
  isSlot := by decide

theorem attempt_sound_sample :
    Taken sample (CText.text "GET /7/log") ⟨[], [], []⟩
      ⟨[[0x37, 0, 0x6C, 0x6F, 0x67, 0]], [(CText.text "id", ⟨0, 0⟩)], [0]⟩ :=
  attempt_sound sample (CText.text "GET /7/log") ⟨[], [], []⟩ _ true (by decide) (by decide)
    (by decide) (by decide) (by decide +kernel)

end Libuo.HttpReqMatch
