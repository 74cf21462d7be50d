import Libuo.JsonLookup

/-!
# Names that are not found

Behind an array or an object that has anything in it, the scanner takes the members that follow for
further elements or members, and the loop of the lookup comes out behind all of them. A name is
found if and only if there is no such value in front of it.
-/

namespace Libuo.JsonLookup
open CStrings Json JsonGrammar JsonStrings JsonScanner JsonMembers JsonValueEnds

variable {s l r t y name : List UInt8} {a p q n m e K : ℕ} {c d : UInt8}
  {before colonBefore colonAfter after : Ws} {key : Str} {ms : Members} {v v₀ : Value}

theorem at_drop (h : At s a (y ++ 0 :: r)) (ha : a ≤ e) (he : e ≤ a + y.length) :
    At s e (y.drop (e - a) ++ 0 :: r) := by
  have hsplit : y = y.take (e - a) ++ y.drop (e - a) := (List.take_append_drop _ _).symm
  rw [hsplit, List.append_assoc] at h
  have h' := h.append
  rwa [List.length_take, Nat.min_eq_left (by omega), Nat.add_sub_cancel' ha] at h'

theorem at_unique (h : At s p (c :: l)) (h' : At s q (c :: l)) : p = q := by
  have hlen := congrArg List.length h
  have hlen' := congrArg List.length h'
  rw [List.length_drop, List.length_cons] at hlen hlen'
  omega

theorem at_of_strchr (h : strchr s p c = .ok (some q)) : ∃ l, At s q (c :: l) := by
  obtain ⟨l, hl⟩ : ∃ l, s.drop p = l := ⟨_, rfl⟩
  rw [strchr, hl] at h
  induction l generalizing p with
  | nil => cases h
  | cons d l ih =>
    rw [strchrFrom] at h
    split_ifs at h with hd
    · obtain rfl := Option.some.inj (Except.ok.inj h)
      exact ⟨l, hd ▸ hl⟩
    · cases h
    · exact ih h (At.cons hl)

/-- The scanner has come out behind everything, or behind the member. -/
def Beyond (s : List UInt8) (K e : ℕ) : Prop := strchr s e (chr ',') = .ok none ∨ K < e

/-- The text from `a` on, with the place `K` in it. -/
def Region (s : List UInt8) (a K : ℕ) : Prop :=
  ∃ y r, At s a (y ++ 0 :: r) ∧ 0 ∉ y ∧ K ≤ a + y.length

theorem region_of_at (h : At s a (y ++ 0 :: r)) (hy : 0 ∉ y) (hK : At s K (l ++ 0 :: r)) :
    Region s a K := by
  refine ⟨y, r, h, hy, ?_⟩
  have hlen := congrArg List.length h
  have hlen' := congrArg List.length hK
  simp only [List.length_drop, List.length_append, List.length_cons] at hlen hlen'
  omega

/-- Where no comma follows, none follows behind what is found next, if this is in the text. -/
theorem Region.beyond (hregion : Region s a K) (ha : a ≤ e) (hd : d ≠ 0)
    (hcomma : strchr s e (chr ',') = .ok none) (hfound : strchr s (e + 1) d = .ok (some q)) :
    Beyond s K (q + 1) := by
  obtain ⟨y, r, h, hy, hK⟩ := hregion
  have hle := strchr_returns s (e + 1) d _ hfound q rfl
  by_cases he : e < a + y.length
  · refine .inl ?_
    obtain ⟨z, hz⟩ : ∃ z, z = y.drop (e - a) := ⟨_, rfl⟩
    have hat : At s e (z ++ 0 :: r) := hz ▸ at_drop h ha (Nat.le_of_lt he)
    have hzero : 0 ∉ z := fun hmem => hy (List.mem_of_mem_drop (hz ▸ hmem))
    have hnot : chr ',' ∉ z := by
      rcases strchr_total (c := chr ',') hat hzero with hnone | ⟨x, -, hx, -⟩
      · exact (hnone (by decide)).1
      · rw [hx] at hcomma
        cases hcomma
    have hne : z ≠ [] := by
      rintro rfl
      have hlen := congrArg List.length hz
      rw [List.length_nil, List.length_drop] at hlen
      omega
    obtain ⟨x, z, rfl⟩ := List.exists_cons_of_ne_nil hne
    have hzero' : 0 ∉ z := fun hmem => hzero (List.mem_cons_of_mem x hmem)
    have hnot' : chr ',' ∉ z := fun hmem => hnot (List.mem_cons_of_mem x hmem)
    rcases strchr_total (c := d) hat.cons hzero' with hnone | ⟨q', -, hq', -, hlt⟩
    · rw [(hnone hd).2] at hfound
      cases hfound
    · obtain rfl := Option.some.inj (Except.ok.inj (hq'.symm.trans hfound))
      refine strchr_none (at_drop hat.cons (Nat.le_succ_of_le hle) hlt) ?_ ?_ (by decide)
      · exact fun hmem => hnot' (List.mem_of_mem_drop hmem)
      · exact fun hmem => hzero' (List.mem_of_mem_drop hmem)
  · exact .inr (by omega)

/-- The text behind a value in front of a member with the value `v₀` and the text `l` behind it:
between them there are the ends of objects and other members. -/
inductive Before (v₀ : Value) (l : List UInt8) : List UInt8 → Prop
  | here {pre : List UInt8} {before colonBefore colonAfter : Ws} {key : Str}
    (hpre : ∀ c ∈ pre, isWs c = true ∨ c = chr '}') :
    Before v₀ l (pre ++ chr ',' :: (memberStart before key colonBefore colonAfter ++
      (v₀.text ++ l)))
  | there {pre : List UInt8} {before colonBefore colonAfter : Ws} {key : Str} {v : Value}
    {t : List UInt8} (hpre : ∀ c ∈ pre, isWs c = true ∨ c = chr '}') (h : Before v₀ l t) :
    Before v₀ l (pre ++ chr ',' :: (memberStart before key colonBefore colonAfter ++
      (v.text ++ t)))

theorem not_mem_pre {pre : List UInt8} (hpre : ∀ c ∈ pre, isWs c = true ∨ c = chr '}')
    (hd : isWs d = false ∧ d ≠ chr '}') : d ∉ pre := by
  intro hmem
  rcases hpre d hmem with hws | rfl
  · rw [hd.1] at hws
    cases hws
  · exact hd.2 rfl

theorem Before.zero_not_mem (h : Before v₀ l t) (hl : 0 ∉ l) : 0 ∉ t := by
  induction h with
  | here hpre =>
    have hzero := not_mem_pre (d := 0) hpre (by decide)
    simp [hzero, zero_not_mem_memberStart, v₀.zero_not_mem, hl, chr]
  | @there pre _ _ _ _ v _ hpre h ih =>
    have hzero := not_mem_pre (d := 0) hpre (by decide)
    simp [hzero, zero_not_mem_memberStart, v.zero_not_mem, ih, chr]

theorem Before.brace_mem (h : Before v₀ l t) (hl : chr '}' ∈ l) : chr '}' ∈ t := by
  induction h with
  | here => simp [hl]
  | there _ _ ih => simp [ih]

theorem Before.follow (h : Before v₀ l t) (hl : 0 ∉ l) : Follow t := by
  refine ⟨h.zero_not_mem hl, ?_⟩
  have hhead : ∀ {pre u : List UInt8}, (∀ c ∈ pre, isWs c = true ∨ c = chr '}') →
      ∀ c ∈ (pre ++ chr ',' :: u).head?,
        isWs c = true ∨ c = chr ',' ∨ c = chr ']' ∨ c = chr '}' := by
    intro pre u hpre c hc
    cases pre with
    | nil => exact .inr (.inl (Option.some.inj hc).symm)
    | cons d pre =>
      obtain rfl := Option.some.inj hc
      rcases hpre d (.head _) with hws | hbrace
      · exact .inl hws
      · exact .inr (.inr (.inr hbrace))
  cases h with
  | here hpre => exact hhead hpre
  | there hpre => exact hhead hpre

theorem Before.close (h : Before v₀ l t) (w : Ws) : Before v₀ l (w.1 ++ chr '}' :: t) := by
  have hclose : ∀ {pre : List UInt8}, (∀ c ∈ pre, isWs c = true ∨ c = chr '}') →
      ∀ c ∈ w.1 ++ chr '}' :: pre, isWs c = true ∨ c = chr '}' := by
    intro pre hpre c hc
    rcases List.mem_append.mp hc with hc | hc
    · exact .inl (w.2 c hc)
    · rcases List.mem_cons.mp hc with rfl | hc
      · exact .inr rfl
      · exact hpre c hc
  cases h with
  | here hpre =>
    rw [← List.cons_append, ← List.append_assoc]
    exact .here (hclose hpre)
  | there hpre h =>
    rw [← List.cons_append, ← List.append_assoc]
    exact .there (hclose hpre) h

/-- The comma behind a value, and the member that follows. -/
theorem Before.next (hb : Before v₀ l t) (h : At s e (t ++ 0 :: r)) :
    ∃ (x : ℕ) (before : Ws) (key : Str) (colonBefore colonAfter : Ws) (v : Value)
      (u : List UInt8), strchr s e (chr ',') = .ok (some x) ∧
        At s x ([chr ','] ++ (memberStart before key colonBefore colonAfter ++
          (v.text ++ (u ++ 0 :: r)))) ∧ (v = v₀ ∧ u = l ∨ Before v₀ l u) := by
  have hcomma : ∀ {pre u : List UInt8}, (∀ c ∈ pre, isWs c = true ∨ c = chr '}') →
      At s e (pre ++ chr ',' :: u) → strchr s e (chr ',') = .ok (some (e + pre.length)) ∧
        At s (e + pre.length) (chr ',' :: u) := fun hpre h =>
    ⟨strchr_at h (not_mem_pre hpre (by decide)) (not_mem_pre hpre (by decide)), h.append⟩
  cases hb with
  | @here pre before colonBefore colonAfter key hpre =>
    obtain ⟨hx, hat⟩ := hcomma hpre (by simpa using h)
    exact ⟨_, before, key, colonBefore, colonAfter, v₀, l, hx, hat, .inl ⟨rfl, rfl⟩⟩
  | @there pre before colonBefore colonAfter key v u hpre hb =>
    obtain ⟨hx, hat⟩ := hcomma hpre (by simpa using h)
    exact ⟨_, before, key, colonBefore, colonAfter, v, u, hx, hat, .inr hb⟩

theorem Before.members (h : Before v₀ l t) (ms : Members) :
    ∃ (before : Ws) (key : Str) (colonBefore colonAfter : Ws) (v : Value) (u : List UInt8),
      ms.text ++ t = memberStart before key colonBefore colonAfter ++ (v.text ++ u) ∧
        Before v₀ l u := by
  cases ms with
  | last before key colonBefore colonAfter v after =>
    exact ⟨before, key, colonBefore, colonAfter, v, _, by simp [Members.text], h.close after⟩
  | more before key colonBefore colonAfter v after ms =>
    obtain ⟨before', key', colonBefore', colonAfter', v', u, htext, hu⟩ := h.members ms
    refine ⟨before, key, colonBefore, colonAfter, v, after.1 ++ chr ',' :: (ms.text ++ t), ?_, ?_⟩
    · simp [Members.text]
    · rw [htext]
      exact .there (fun c hc => .inl (after.2 c hc)) hu

/-- What is behind the value of a member in `uo_json_find_obj_end`. -/
def objRest (s : List UInt8) (find : ℕ → Scan (Option ℕ)) (n q : ℕ) : Scan (Option ℕ) := do
  let some e ← find q | return none
  closeStep s e (chr '}') (objLoop s find n)

theorem MemberAt.objLoop (h : MemberAt s p key q) (find : ℕ → Scan (Option ℕ)) (n : ℕ) :
    objLoop s find (n + 1) p = objRest s find n q := by
  obtain ⟨⟨d, hload, hd⟩, b, k, hb, hquote, hle, hkeyEnd, -, colon, hcolon, hskip⟩ := h
  rw [Json.objLoop, hload, ok_bind, if_neg hd]
  simp only [hb, hquote, ok_bind, if_neg hle, hkeyEnd, hcolon, hskip]
  rfl

theorem closeStep_cases {close : UInt8} {loop : ℕ → Scan (Option ℕ)}
    (h : closeStep s e close loop = .ok (some q)) :
    (∃ b, strchr s (e + 1) close = .ok (some b) ∧ strchr s e (chr ',') = .ok none ∧ q = b + 1) ∨
      ∃ x, strchr s e (chr ',') = .ok (some x) ∧ loop x = .ok (some q) := by
  rw [closeStep] at h
  cases hb : strchr s (e + 1) close with
  | error stop => simp [hb] at h
  | ok o =>
    cases o with
    | none => simp [hb] at h
    | some b =>
      simp only [hb, ok_bind] at h
      cases hx : strchr s e (chr ',') with
      | error stop => simp [hx] at h
      | ok o =>
        cases o with
        | none =>
          simp only [hx, ok_bind, pure_eq_ok] at h
          exact .inl ⟨b, rfl, rfl, (Option.some.inj (Except.ok.inj h)).symm⟩
        | some x =>
          simp only [hx, ok_bind] at h
          exact .inr ⟨x, rfl, h⟩

theorem exists_of_bind {α β : Type} {x : Scan α} {f : α → Scan β} {b : β}
    (h : x >>= f = .ok b) : ∃ a, x = .ok a ∧ f a = .ok b := by
  cases x with
  | error stop => cases h
  | ok a => exact ⟨a, rfl, h⟩

theorem arrLoop_cases {find : ℕ → Scan (Option ℕ)} (hahead : ∀ p, ReturnsAhead (find p) (p ≤ ·))
    (h : arrLoop s find n p = .ok (some q)) :
    ∃ e m, p ≤ e ∧ closeStep s e (chr ']') (arrLoop s find m) = .ok (some q) := by
  cases n with
  | zero => cases h
  | succ n =>
    obtain ⟨c, -, h⟩ := exists_of_bind h
    split at h
    · cases h
    · obtain ⟨p', hskip, h⟩ := exists_of_bind h
      obtain ⟨o, hfind, h⟩ := exists_of_bind h
      cases o with
      | none => cases h
      | some e =>
        have hle := skipWhile_returns _ _ _ _ hskip
        have hle' := hahead _ _ hfind e rfl
        exact ⟨e, n, Nat.le_trans hle hle', h⟩

/-- What an array gives in front of the member: no comma is left. -/
theorem arr_beyond (hregion : Region s a K) (hp : a ≤ p) (harr : At s p (chr '[' :: c :: l))
    (hc : c ≠ chr ']') (hfind : findEnd s n p = .ok (some e)) : Beyond s K e := by
  cases n with
  | zero => cases hfind
  | succ n =>
    rw [findEnd, skipWhile_stop harr (by decide), ok_bind, load_at harr, ok_bind,
      if_neg (by decide), if_neg (by decide), if_pos rfl, findArrEnd] at hfind
    cases hb : strchr s (p + 1) (chr ']') with
    | error stop => simp [hb] at hfind
    | ok o =>
      cases o with
      | none => simp [hb] at hfind
      | some b =>
        have hne : p + 1 ≠ b := by
          rintro rfl
          obtain ⟨l', hat⟩ := at_of_strchr hb
          rw [At, harr.cons] at hat
          exact hc (List.cons.inj hat).1
        simp only [hb, ok_bind, if_neg hne] at hfind
        obtain ⟨e', m, hle, hclose⟩ := arrLoop_cases (findEnd_ahead s n) hfind
        rcases closeStep_cases hclose with ⟨b', hb', hcomma, rfl⟩ | ⟨x, hx, hloop⟩
        · exact hregion.beyond (by omega) (by decide) hcomma hb'
        · obtain ⟨l', hat⟩ := at_of_strchr hx
          exact absurd hloop (arrLoop_comma hat n m e)

/-- What a value in front of the member gives. -/
def Passed (s : List UInt8) (K p : ℕ) (v : Value) (e : ℕ) : Prop :=
  Simple v ∧ e = p + v.text.length ∨ ¬ Simple v ∧ Beyond s K e

/-- The loop of an object in front of the member, or of one that it is in, goes on with the members
that follow until it has passed the member. -/
theorem objLoop_beyond {find : ℕ → Scan (Option ℕ)} (hregion : Region s a K) (hl : 0 ∉ l)
    (hbrace : chr '}' ∈ l) (hK : At s K (v₀.text ++ (l ++ 0 :: r)))
    (hahead : ∀ p, ReturnsAhead (find p) (p ≤ ·))
    (hfind : ∀ {v t p e}, a ≤ p → At s p (v.text ++ (t ++ 0 :: r)) → Before v₀ l t →
      find p = .ok (some e) → Passed s K p v e)
    {sep : List UInt8} (hsep : sep = [] ∨ sep = [chr ',']) (hp : a ≤ p)
    (h : At s p (sep ++ (memberStart before key colonBefore colonAfter ++
      (v.text ++ (t ++ 0 :: r)))))
    (hv : v = v₀ ∧ t = l ∨ Before v₀ l t) (hloop : objLoop s find n p = .ok (some e)) :
    Beyond s K e := by
  induction n generalizing p sep before key colonBefore colonAfter v t with
  | zero => cases hloop
  | succ n ih =>
    have hmem : chr '}' ∈ t ∧ 0 ∉ t := by
      rcases hv with ⟨rfl, rfl⟩ | hv
      · exact ⟨hbrace, hl⟩
      · exact ⟨hv.brace_mem hbrace, hv.zero_not_mem hl⟩
    have hmember := memberAt (hsep.imp_right .inr) h hmem.1 hmem.2
    rw [hmember.objLoop, objRest] at hloop
    obtain ⟨o, hfound, hclose⟩ := exists_of_bind hloop
    cases o with
    | none => cases hclose
    | some e₁ =>
      have hvalue := h.append.append
      have hle := hahead _ _ hfound e₁ rfl
      rcases closeStep_cases hclose with ⟨b, hb, hcomma, rfl⟩ | ⟨x, hx, hloop⟩
      · exact hregion.beyond (by omega) (by decide) hcomma hb
      · have hle' := strchr_returns _ _ _ _ hx x rfl
        have hlt := objLoop_ahead hahead n x _ hloop e rfl
        rcases hv with ⟨rfl, rfl⟩ | hv
        · obtain ⟨c, l', hc, -⟩ := v.exists_cons
          rw [hc] at hvalue hK
          have hplace := at_unique hvalue hK
          exact .inr (by omega)
        · rcases hfind (by omega) hvalue hv hfound with ⟨-, rfl⟩ | ⟨-, hnone | hlate⟩
          · obtain ⟨x', _, _, _, _, v', u, hx', hat, hu⟩ := hv.next hvalue.append
            obtain rfl := Option.some.inj (Except.ok.inj (hx'.symm.trans hx))
            exact ih (.inr rfl) (by omega) hat hu hloop
          · rw [hx] at hnone
            cases hnone
          · exact .inr (by omega)

theorem findEnd_num {num : Number} (h : At s p (num.text ++ c :: r)) (n : ℕ) :
    findEnd s (n + 1) p = findNumEnd s p := by
  obtain ⟨d, l, hd, hfirst⟩ := num.exists_cons
  rw [hd] at h
  have hne : isspace d = false ∧ d ≠ 0 ∧ d ≠ chr '{' ∧ d ≠ chr '[' ∧ d ≠ chr '"' ∧
      d ≠ chr 'n' ∧ d ≠ chr 't' ∧ d ≠ chr 'f' := by
    rcases hfirst with rfl | hdigit
    · decide
    · exact class_of_isdigit hdigit
  rw [findEnd, skipWhile_stop h hne.1, ok_bind, load_at h, ok_bind]
  simp [hne]

/-- The text of an array does not begin with its end, unless it is empty. -/
theorem exists_elem (es : Elems) : ∃ c l, es.text = c :: l ∧ c ≠ chr ']' := by
  have hfirst : ∀ (w : Ws) (v : Value) (u : List UInt8),
      ∃ c l, w.1 ++ (v.text ++ u) = c :: l ∧ c ≠ chr ']' := by
    intro w v u
    cases hw : w.1 with
    | nil =>
      obtain ⟨c, l, hv, -, hc⟩ := v.exists_cons
      exact ⟨c, l ++ u, by rw [hv]; rfl, hc⟩
    | cons d w' =>
      refine ⟨d, w' ++ (v.text ++ u), rfl, ?_⟩
      rintro rfl
      exact w.not_mem (show isWs (chr ']') = false by decide) (hw ▸ List.mem_cons_self)
  cases es with
  | last before v after =>
    rw [Elems.text, List.append_assoc]
    exact hfirst before v _
  | more before v after es =>
    rw [Elems.text, List.append_assoc]
    exact hfirst before v _

/-- Whatever the scanner gives for a value in front of the member. -/
theorem findEnd_passed (hregion : Region s a K) (hl : 0 ∉ l) (hbrace : chr '}' ∈ l)
    (hK : At s K (v₀.text ++ (l ++ 0 :: r))) (n : ℕ) {v : Value} {t : List UInt8} {p e : ℕ}
    (hp : a ≤ p) (h : At s p (v.text ++ (t ++ 0 :: r))) (hb : Before v₀ l t)
    (hfind : findEnd s n p = .ok (some e)) : Passed s K p v e := by
  induction n generalizing v t p e with
  | zero => cases hfind
  | succ n ih =>
    have hfollow := hb.follow hl
    have hhandled : Handled v t → Simple v → Passed s K p v e := fun hv hs =>
      .inl ⟨hs, Option.some.inj (FindsEnd.unique ⟨n + 1, hfind⟩
        ((scanned_iff v h hfollow).mpr hv).findsEnd)⟩
    cases v with
    | null | bool | str | emptyObj => exact hhandled trivial trivial
    | num num =>
      obtain ⟨c, l', hc, hchar, -⟩ := Follow.char (r := r) hfollow
      rw [hc] at h
      rw [findEnd_num h, findNumEnd_at num h hchar] at hfind
      split at hfind
      · rename_i hcond
        exact .inl ⟨hcond.1, (Option.some.inj (Except.ok.inj hfind)).symm⟩
      · cases hfind
    | emptyArr w =>
      by_cases hw : w.1 = []
      · exact hhandled hw hw
      · obtain ⟨c, w', hc⟩ := List.exists_cons_of_ne_nil hw
        have harr : At s p (chr '[' :: c :: (w' ++ chr ']' :: (t ++ 0 :: r))) := by
          simpa [Value.text, hc] using h
        refine .inr ⟨hw, arr_beyond hregion hp harr ?_ hfind⟩
        rintro rfl
        exact w.not_mem (show isWs (chr ']') = false by decide) (hc ▸ List.mem_cons_self)
    | arr es =>
      obtain ⟨c, l', hc, hne⟩ := exists_elem es
      have harr : At s p (chr '[' :: c :: (l' ++ (t ++ 0 :: r))) := by
        rw [Value.text, hc] at h
        exact h
      exact .inr ⟨id, arr_beyond hregion hp harr hne hfind⟩
    | obj ms =>
      refine .inr ⟨id, ?_⟩
      obtain ⟨before, key, colonBefore, colonAfter, v, u, htext, hu⟩ := hb.members ms
      have hobj : At s p (chr '{' :: (memberStart before key colonBefore colonAfter ++
          (v.text ++ (u ++ 0 :: r)))) := by
        have hmore : chr '{' :: (memberStart before key colonBefore colonAfter ++
            (v.text ++ (u ++ 0 :: r))) = chr '{' :: (ms.text ++ t) ++ 0 :: r := by
          rw [htext]
          simp
        rw [hmore]
        simpa [Value.text] using h
      rw [findEnd, skipWhile_stop hobj (by decide), ok_bind, load_at hobj, ok_bind,
        if_neg (by decide), if_pos rfl] at hfind
      exact objLoop_beyond hregion hl hbrace hK (findEnd_ahead s n) ih (.inl rfl)
        (Nat.le_succ_of_le hp) hobj.cons (.inr hu) hfind

theorem valueLoop_ahead (s name : List UInt8) (n p : ℕ) :
    ReturnsAhead (valueLoop s name n p) (p < ·) := by
  induction n generalizing p with
  | zero => exact returns_error
  | succ n ih =>
    unfold valueLoop
    refine (returns_true _).bind fun c _ => ?_
    split <;> [simp; skip]
    refine (returns_true _).bind fun rightBrace _ => ?_
    split <;> [skip; simp]
    refine (strchr_returns _ _ _).bind fun key hkey => ?_
    split <;> [skip; simp]
    have hkey := hkey _ rfl
    split <;> [simp; skip]
    refine (findStrEnd_ahead s _).bind fun keyEnd hend => ?_
    split <;> [skip; simp]
    have hend := hend _ rfl
    refine (strchr_returns _ _ _).bind fun colon hcolon => ?_
    split <;> [skip; simp]
    have hcolon := hcolon _ rfl
    refine (skipWhile_returns _ _ _).bind fun v hv => ?_
    split <;> [(simp; omega); skip]
    refine (findEnd_ahead s n v).bind fun e he => ?_
    split <;> [skip; simp]
    have he := he _ rfl
    refine (returns_true _).bind fun rightBrace _ => ?_
    split <;> [skip; simp]
    refine (strchr_returns _ _ _).bind fun comma hcomma => ?_
    split <;> [skip; simp]
    have hcomma := hcomma _ rfl
    exact fun r hr q hq => by have := ih _ r hr q hq; omega

theorem valueRest_cases (h : valueRest s name n p = .ok (some q)) :
    ∃ e x, findEnd s n p = .ok (some e) ∧ strchr s e (chr ',') = .ok (some x) ∧
      valueLoop s name n x = .ok (some q) := by
  obtain ⟨o, hfind, h⟩ := exists_of_bind h
  cases o with
  | none => cases h
  | some e =>
    obtain ⟨o, -, h⟩ := exists_of_bind h
    cases o with
    | none => cases h
    | some b =>
      obtain ⟨o, hcomma, h⟩ := exists_of_bind h
      cases o with
      | none => cases h
      | some x => exact ⟨e, x, hfind, hcomma, h⟩

/-- The member that is looked for, from a value in front of it. -/
theorem before_member {f : Value × ℕ} : {ms : Members} → getMember name ms = some f → (w : Ws) →
    (t : List UInt8) → ∃ l, Before f.1 l (w.1 ++ chr ',' :: (ms.text ++ t)) ∧ chr '}' ∈ l ∧
      (0 ∉ t → 0 ∉ l) ∧ ∀ {p r}, At s p (ms.text ++ (t ++ 0 :: r)) →
        At s (p + f.2) (f.1.text ++ (l ++ 0 :: r))
  | .last before key colonBefore colonAfter v after, hm, w, t => by
    have hpre : ∀ c ∈ w.1, isWs c = true ∨ c = chr '}' := fun c hc => .inl (w.2 c hc)
    rw [getMember] at hm
    split at hm
    · obtain rfl := Option.some.inj hm
      refine ⟨after.1 ++ chr '}' :: t, ?_, by simp, fun ht => by simp [ht, chr], fun {p r} h => ?_⟩
      · have hhere : Before v (after.1 ++ chr '}' :: t) (w.1 ++ chr ',' ::
            (memberStart before key colonBefore colonAfter ++
              (v.text ++ (after.1 ++ chr '}' :: t)))) := .here hpre
        simpa [Members.text] using hhere
      · have h : At s p (memberStart before key colonBefore colonAfter ++ (v.text ++
            ((after.1 ++ chr '}' :: t) ++ 0 :: r))) := by
          simpa [Members.text] using h
        exact h.append
    · cases hm
  | .more before key colonBefore colonAfter v after ms, hm, w, t => by
    have hpre : ∀ c ∈ w.1, isWs c = true ∨ c = chr '}' := fun c hc => .inl (w.2 c hc)
    rw [getMember] at hm
    split at hm
    · obtain rfl := Option.some.inj hm
      refine ⟨after.1 ++ chr ',' :: (ms.text ++ t), ?_, by simp [brace_mem_text ms],
        fun ht => by simp [ht, chr, ms.zero_not_mem], fun {p r} h => ?_⟩
      · have hhere : Before v (after.1 ++ chr ',' :: (ms.text ++ t)) (w.1 ++ chr ',' ::
            (memberStart before key colonBefore colonAfter ++
              (v.text ++ (after.1 ++ chr ',' :: (ms.text ++ t))))) := .here hpre
        simpa [Members.text] using hhere
      · have h : At s p (memberStart before key colonBefore colonAfter ++ (v.text ++
            ((after.1 ++ chr ',' :: (ms.text ++ t)) ++ 0 :: r))) := by
          simpa [Members.text] using h
        exact h.append
    · obtain ⟨f, hfound, rfl⟩ := Option.map_eq_some_iff.mp hm
      obtain ⟨l, hb, hl, hzero, hat⟩ := before_member hfound after t
      refine ⟨l, ?_, hl, hzero, fun {p r} h => ?_⟩
      · have hthere : Before f.1 l (w.1 ++ chr ',' ::
            (memberStart before key colonBefore colonAfter ++
              (v.text ++ (after.1 ++ chr ',' :: (ms.text ++ t))))) := .there hpre hb
        simpa [Members.text] using hthere
      · have hbehind : At s (p + (memberStart before key colonBefore colonAfter).length +
            v.text.length) ((after.1 ++ [chr ',']) ++ (ms.text ++ (t ++ 0 :: r))) := by
          have h : At s p (memberStart before key colonBefore colonAfter ++ (v.text ++
              (after.1 ++ chr ',' :: (ms.text ++ (t ++ 0 :: r))))) := by
            simpa [Members.text] using h
          simpa using h.append.append
        have hfar := hat hbehind.append
        simpa [Nat.add_assoc] using hfar

/-- Where a value in front of the member is passed over together with it, only what is behind the
member is found. -/
theorem valueLoop_beyond {f : Value × ℕ} : (ms : Members) → {n p q : ℕ} → {sep : List UInt8} →
    (sep = [chr '{'] ∨ sep = [chr ',']) → At s p (sep ++ (ms.text ++ (t ++ 0 :: r))) → 0 ∉ t →
    getMember name ms = some f → ¬ Reaches name ms → valueLoop s name n p = .ok (some q) →
    p + 1 + f.2 < q
  | .last before key colonBefore colonAfter v after, _, _, _, _, _, _, _, hm, hnot, _ => by
    rw [getMember] at hm
    split at hm
    · rename_i hkey
      exact absurd hkey hnot
    · cases hm
  | .more before key colonBefore colonAfter v after ms, n, p, q, sep, hsep, h, ht, hm, hnot,
      hloop => by
    obtain ⟨hkey, hnot⟩ := not_or.mp hnot
    rw [getMember, if_neg hkey] at hm
    obtain ⟨f, hfound, rfl⟩ := Option.map_eq_some_iff.mp hm
    obtain ⟨l, hb, hl, hzero, hat⟩ := before_member (s := s) hfound after t
    have hbrace := brace_mem_text ms
    have h : At s p (sep ++ (memberStart before key colonBefore colonAfter ++ (v.text ++
        ((after.1 ++ chr ',' :: ms.text) ++ (t ++ 0 :: r))))) := by
      simpa [Members.text] using h
    have hmember := memberAt (.inr hsep) h (by simp [hbrace]) (by simp [chr, ms.zero_not_mem])
    rw [length_sep hsep] at hmember
    obtain ⟨a, ha⟩ : ∃ a, a = p + 1 + (memberStart before key colonBefore colonAfter).length :=
      ⟨_, rfl⟩
    have hvalue : At s a (v.text ++ ((after.1 ++ chr ',' :: (ms.text ++ t)) ++ 0 :: r)) := by
      have := h.append.append
      rw [length_sep hsep, ← ha] at this
      simpa using this
    have hbehind : At s (a + v.text.length) (after.1 ++ chr ',' :: (ms.text ++ (t ++ 0 :: r))) := by
      simpa using hvalue.append
    have hK := hat (p := a + v.text.length + after.1.length + 1) hbehind.append.cons
    cases n with
    | zero => cases hloop
    | succ n =>
      rw [hmember.valueLoop, if_neg hkey, ← ha] at hloop
      obtain ⟨e, x, hfind, hcomma, hloop⟩ := valueRest_cases hloop
      have hzero' : 0 ∉ v.text ++ (after.1 ++ chr ',' :: (ms.text ++ t)) := by
        simp [v.zero_not_mem, ms.zero_not_mem, ht, chr]
      have hregion := region_of_at (by simpa using hvalue) hzero'
        (by simpa using hK : At s _ ((f.1.text ++ l) ++ 0 :: r))
      rcases findEnd_passed hregion (hzero ht) hl hK n (Nat.le_refl a) hvalue hb hfind with
        ⟨hv, rfl⟩ | ⟨-, hnone | hlate⟩
      · obtain rfl := Option.some.inj (Except.ok.inj (hcomma.symm.trans
          (strchr_at hbehind (after.not_mem (by decide)) after.zero_not_mem)))
        have hnot' : ¬ Reaches name ms := fun hreach => hnot ⟨hv, hreach⟩
        have hlt := valueLoop_beyond ms (.inr rfl) hbehind.append ht hfound hnot' hloop
        omega
      · rw [hcomma] at hnone
        cases hnone
      · have hle := strchr_returns _ _ _ _ hcomma x rfl
        have hlt := valueLoop_ahead s name n x _ hloop q rfl
        simp only
        omega

/-- A member is found if and only if no value in front of it is an array or an object with anything
in it, or a number that the scanner does not pass. -/
theorem findsValue_iff {f : Value × ℕ} {w : Ws}
    (h : At s p (w.1 ++ chr '{' :: (ms.text ++ (t ++ 0 :: r)))) (ht : 0 ∉ t)
    (hm : getMember name ms = some f) :
    FindsValue s name p (some (p + w.1.length + 1 + f.2)) ↔ Reaches name ms := by
  constructor
  · rintro ⟨n, hfind⟩
    by_contra hnot
    rw [findValue, skipWhile_at h w.isspace (by decide), ok_bind, load_at h.append, ok_bind,
      if_neg (by simp)] at hfind
    exact Nat.lt_irrefl _ (valueLoop_beyond ms (.inl rfl) h.append ht hm hnot hfind)
  · intro hreach
    have hfind := findsValue_members h ht (hreach.passes t)
    rwa [hm] at hfind

/-- The members of `{"a":[1],"b":null}`. -/
def behindArray : Members :=
  .more noWs nameA noWs noWs lone noWs (.last noWs nameB noWs noWs .null noWs)

theorem findsValue_iff_behindArray : ∃ f, getMember [chr 'b'] behindArray = some f ∧
    (FindsValue (chr '{' :: (behindArray.text ++ ([] ++ 0 :: []))) [chr 'b'] 0
      (some (0 + 0 + 1 + f.2)) ↔ Reaches [chr 'b'] behindArray) ∧
    ¬ Reaches [chr 'b'] behindArray := by
  have hat : At (chr '{' :: (behindArray.text ++ ([] ++ 0 :: []))) 0
      (([] : List UInt8) ++ chr '{' :: (behindArray.text ++ ([] ++ 0 :: []))) := rfl
  have hm : getMember [chr 'b'] behindArray = some (.null, 12) := rfl
  have hiff := findsValue_iff (w := ⟨[], by decide⟩) hat (by simp) hm
  exact ⟨_, hm, hiff, fun h => (h.resolve_left (by decide)).1⟩

end Libuo.JsonLookup
