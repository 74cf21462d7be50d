import Libuo.JsonScanner

/-!
# Where values end

The scanner against the grammar. A bracket or brace directly behind the last
element or member is overlooked, a comma behind the value is taken for one inside
it, and in an array a comma stops the loop from making progress. The condition
under which none of this happens is stated over the value and the text behind it.
-/

namespace Libuo.JsonValueEnds
open CStrings Json JsonGrammar JsonStrings JsonScanner

variable {s l r t : List UInt8} {p n : ℕ} {c : UInt8} {o : Option ℕ}

/-- The first character behind a value. -/
def FollowChar (c : UInt8) : Prop :=
  c = 0 ∨ isWs c = true ∨ c = chr ',' ∨ c = chr ']' ∨ c = chr '}'

/-- An exponent, if there is one, has a sign. -/
def isSigned (num : Number) : Bool :=
  match num.exp with
  | none => true
  | some e => e.sign.isSome

/-- A number may stand directly before this character. -/
def endsNumber (c : UInt8) : Bool := c = 0 || c = chr ',' || isspace c

private theorem FollowChar.ne (hc : FollowChar c) :
    isdigit c = false ∧ c ≠ chr '.' ∧ tolower c ≠ chr 'e' := by
  simp only [FollowChar, isWs, Bool.or_eq_true, decide_eq_true_eq, or_assoc] at hc
  rcases hc with rfl | rfl | rfl | rfl | rfl | rfl | rfl | rfl <;> decide

theorem numStop_at (h : At s p (c :: r)) :
    findNumEnd.numStop s p = .ok (if endsNumber c then some p else none) := by
  simp [findNumEnd.numStop, load_at h, endsNumber, or_assoc]

theorem numExp_at (num : Number) (h : At s p (num.expText ++ c :: r)) (hc : FollowChar c) :
    findNumEnd.numExp s p = .ok (if isSigned num ∧ endsNumber c then
      some (p + num.expText.length) else none) := by
  obtain ⟨hdigit, -, hmark⟩ := hc.ne
  unfold findNumEnd.numExp
  cases he : num.exp with
  | none =>
    simp only [Number.expText, isSigned, he, List.nil_append] at h ⊢
    rw [load_at h, ok_bind, if_neg hmark, numStop_at h]
    simp
  | some e =>
    obtain ⟨⟨m, hm⟩, sign, ds⟩ := e
    have hm' : tolower m = chr 'e' := by rcases hm with rfl | rfl <;> decide
    simp only [Number.expText, isSigned, he, Exponent.text] at h ⊢
    cases sign with
    | none =>
      obtain ⟨d, l, hd, hdd⟩ := ds.exists_cons
      have h : At s p (m :: d :: (l ++ c :: r)) := by simpa [hd] using h
      have hd' : d ≠ chr '+' ∧ d ≠ chr '-' := by
        constructor <;> rintro rfl <;> exact absurd hdd (by decide)
      simp [load_at h, load_at h.cons, hm', hd']
    | some sign =>
      obtain ⟨d, hd⟩ := sign
      have h : At s p (m :: d :: (ds.1 ++ c :: r)) := by simpa using h
      have hd' : ¬ (d ≠ chr '+' ∧ d ≠ chr '-') := fun h => hd.elim h.1 h.2
      have hskip := skipWhile_at h.cons.cons ds.2.2 hdigit
      rw [load_at h, ok_bind, if_pos hm', load_at h.cons, ok_bind, if_neg hd', hskip, ok_bind,
        numStop_at h.cons.cons.append]
      simp [Nat.add_assoc, Nat.add_comm 2]

private theorem expText_cons (num : Number) (r : List UInt8) (hc : FollowChar c) :
    ∃ d l, num.expText ++ c :: r = d :: l ∧ isdigit d = false ∧ d ≠ chr '.' := by
  unfold Number.expText
  split
  · exact ⟨c, r, rfl, hc.ne.1, hc.ne.2.1⟩
  · rename_i e _
    refine ⟨e.mark.1, _, rfl, ?_⟩
    rcases e.mark.2 with h | h <;> rw [h] <;> decide

private theorem fracText_at (num : Number) {d : UInt8} {l : List UInt8}
    (h : At s p (num.fracText ++ d :: l)) (hdigit : isdigit d = false) (hdot : d ≠ chr '.') :
    ∃ x l', num.fracText ++ d :: l = x :: l' ∧ isdigit x = false ∧
      (x = 0 → d = 0 ∧ num.fracText = []) ∧
      skipWhile isdigit s (if x = chr '.' then p + 1 else p) =
        .ok (p + num.fracText.length) := by
  cases hf : num.frac with
  | none =>
    simp only [Number.fracText, hf, List.nil_append, List.length_nil, Nat.add_zero] at h ⊢
    refine ⟨d, l, rfl, hdigit, fun h0 => ⟨h0, trivial⟩, ?_⟩
    rw [if_neg hdot]
    exact skipWhile_stop h hdigit
  | some ds =>
    simp only [Number.fracText, hf, List.cons_append] at h ⊢
    refine ⟨chr '.', ds.1 ++ d :: l, rfl, by decide, fun h0 => absurd h0 (by decide), ?_⟩
    rw [if_pos rfl, skipWhile_at h.cons ds.2.2 hdigit]
    simp [Nat.add_assoc, Nat.add_comm 1]

/-- A number is scanned to its end when its exponent has a sign and the character
behind it ends a number. -/
theorem findNumEnd_at (num : Number) (h : At s p (num.text ++ c :: r)) (hc : FollowChar c) :
    findNumEnd s p = .ok (if isSigned num ∧ endsNumber c then
      some (p + num.text.length) else none) := by
  obtain ⟨sign, hsign⟩ : ∃ sign, sign = if num.isNegative then [chr '-'] else [] := ⟨_, rfl⟩
  have htext : num.text = sign ++ num.int.1 ++ num.fracText ++ num.expText := by
    rw [hsign, Number.text]
  rw [htext] at h ⊢
  simp only [List.append_assoc] at h
  have hint : At s (p + sign.length) (num.int.1 ++ (num.fracText ++ (num.expText ++ c :: r))) :=
    h.append
  have hexp := hint.append.append
  obtain ⟨b, hload, hb⟩ : ∃ b, load s p = .ok b ∧
      (if b = chr '-' then p + 1 else p) = p + sign.length := by
    rw [hsign] at h ⊢
    split_ifs at h ⊢ with hneg
    · exact ⟨_, load_at h, if_pos rfl⟩
    · obtain ⟨b, l', hb, hbd⟩ := num.int.exists_cons
      rw [hb] at h
      refine ⟨b, load_at h, if_neg ?_⟩
      rintro rfl
      exact absurd hbd (by decide)
  obtain ⟨d, l, hd, hdigit, hdot⟩ := expText_cons num r hc
  have hresult := numExp_at num hexp hc
  rw [hd] at hint hexp
  obtain ⟨x, l', hx, hxdigit, hzero, hskip⟩ := fracText_at num hint.append hdigit hdot
  rw [hx] at hint
  have hlen : p + (sign ++ num.int.1 ++ num.fracText ++ num.expText).length =
      p + sign.length + num.int.1.length + num.fracText.length + num.expText.length := by
    simp [Nat.add_assoc]
  rw [hlen, ← hresult, findNumEnd, hload, ok_bind]
  simp only [hb, skipWhile_at hint num.int.2.2 hxdigit, load_at hint.append, ok_bind]
  by_cases h0 : x = 0
  · -- the text ends behind the integer part
    obtain ⟨rfl, hnil⟩ := hzero h0
    simp only [hnil, List.length_nil, Nat.add_zero] at hexp ⊢
    have hmark : tolower 0 ≠ chr 'e' := by decide
    rw [if_pos h0, findNumEnd.numExp, load_at hexp, ok_bind, if_neg hmark, numStop_at hexp]
    rfl
  · rw [if_neg h0, hskip, ok_bind]

/-- What both loops do behind a value: the closing bracket is searched from the next
character on, and another value is expected behind the next comma. -/
def closeStep (s : List UInt8) (e : ℕ) (close : UInt8) (loop : ℕ → Scan (Option ℕ)) :
    Scan (Option ℕ) := do
  let some q ← strchr s (e + 1) close | return none
  let some p ← strchr s e (chr ',') | return some (q + 1)
  loop p

variable {close : UInt8} {loop : ℕ → Scan (Option ℕ)} {e : ℕ} {w : Ws}

theorem closeStep_comma (h : At s e (w.1 ++ chr ',' :: (l ++ r))) (hc : close ∈ l) (h0 : 0 ∉ l) :
    closeStep s e close loop = loop (e + w.1.length) := by
  obtain ⟨q, hq⟩ : ∃ q, strchr s (e + 1) close = .ok (some q) := by
    obtain ⟨d, l', hd⟩ := List.exists_cons_of_ne_nil (show w.1 ++ [chr ','] ≠ [] by simp)
    have h0' : 0 ∉ l' := fun hmem => by
      have : 0 ∈ w.1 ++ [chr ','] := hd ▸ List.mem_cons_of_mem d hmem
      simp [chr] at this
    have h' : At s e (d :: ((l' ++ l) ++ r)) := by
      have : w.1 ++ chr ',' :: (l ++ r) = (w.1 ++ [chr ',']) ++ (l ++ r) := by simp
      rw [this, hd] at h
      simpa using h
    obtain ⟨q, hq, -⟩ := strchr_mem h'.cons (by simp [hc] : close ∈ l' ++ l) (by simp [h0, h0'])
    exact ⟨q, hq⟩
  have hcomma := strchr_at h (w.not_mem (by decide)) w.zero_not_mem
  simp [closeStep, hq, hcomma]

/-- Behind the last value, the right position is returned only when white space
stands before the bracket and no comma stands behind it. -/
theorem closeStep_last (loop : ℕ → Scan (Option ℕ)) (h : At s e (w.1 ++ close :: (t ++ 0 :: r)))
    (ht : 0 ∉ t)
    (hclose : isWs close = false ∧ close ≠ chr ',' ∧ close ≠ 0)
    (hloop : ∀ p, ReturnsAhead (loop p) (p < ·)) :
    closeStep s e close loop = .ok (some (e + w.1.length + 1)) ↔ w.1 ≠ [] ∧ chr ',' ∉ t := by
  have h' : At s e ((w.1 ++ [close]) ++ (t ++ 0 :: r)) := by simpa using h
  have hcomma : chr ',' ∉ w.1 ++ [close] := by
    simp [w.not_mem (show isWs (chr ',') = false by decide), hclose.2.1.symm]
  have hzero : 0 ∉ w.1 ++ [close] := by simp [hclose.2.2.symm]
  constructor
  · intro hr
    unfold closeStep at hr
    have hahead {x : Scan (Option ℕ)} {a b : ℕ} (hx : ReturnsAhead x (a < ·)) (hb : b ≤ a) :
        x ≠ .ok (some b) := fun h => by
      have := hx _ h b rfl
      omega
    constructor
    · intro hw
      rw [hw] at h hr
      have hnext := h.cons
      rcases strchr_total (c := close) hnext ht with hnone | ⟨q, -, hq, hle, -⟩
      · simp [(hnone hclose.2.2).2] at hr
      · have hstep : strchr s e (chr ',') = strchr s (e + 1) (chr ',') :=
          strchr_step h hclose.2.1 hclose.2.2
        simp only [hq, hstep, ok_bind] at hr
        rcases strchr_total (c := chr ',') hnext ht with hnone | ⟨k, -, hk, hle', -⟩
        · rw [(hnone (by decide)).2] at hr
          simp at hr
          omega
        · rw [hk] at hr
          exact hahead (hloop k) (by simpa using hle') hr
    · intro hmem
      obtain ⟨k, hk, hle, -⟩ := strchr_mem h'.append hmem ht
      rw [← strchr_append h' hcomma hzero] at hk
      rw [List.length_append, List.length_singleton] at hle
      cases hq : strchr s (e + 1) close with
      | error stop => simp [hq] at hr
      | ok q =>
        cases q with
        | none => simp [hq] at hr
        | some q =>
          simp only [hq, hk, ok_bind] at hr
          exact hahead (hloop k) (by omega) hr
  · rintro ⟨hw, hc⟩
    obtain ⟨d, l, hd⟩ := List.exists_cons_of_ne_nil hw
    have hl : close ∉ l ∧ 0 ∉ l := by
      have h1 := w.not_mem hclose.1
      have h2 := w.zero_not_mem
      rw [hd] at h1 h2
      exact ⟨fun hm => h1 (List.mem_cons_of_mem d hm), fun hm => h2 (List.mem_cons_of_mem d hm)⟩
    have hq : strchr s (e + 1) close = .ok (some (e + 1 + l.length)) := by
      rw [hd] at h
      exact strchr_at h.cons hl.1 hl.2
    have hnone : strchr s e (chr ',') = .ok none := by
      rw [strchr_append h' hcomma hzero]
      exact strchr_none h'.append hc ht (by decide)
    simp [closeStep, hq, hnone, hd]
    omega

mutual
/-- The end of the value at a position is found, and that of every value inside it. -/
def Scanned (s : List UInt8) : Value → ℕ → Prop
  | .arr es, p => FindsEnd s p (some (p + (Value.arr es).text.length)) ∧ ScannedElems s es (p + 1)
  | .obj ms, p =>
    FindsEnd s p (some (p + (Value.obj ms).text.length)) ∧ ScannedMembers s ms (p + 1)
  | v, p => FindsEnd s p (some (p + v.text.length))

def ScannedElems (s : List UInt8) : Elems → ℕ → Prop
  | .last before v _, p => Scanned s v (p + before.1.length)
  | .more before v after es, p =>
    Scanned s v (p + before.1.length) ∧
      ScannedElems s es (p + before.1.length + v.text.length + after.1.length + 1)

def ScannedMembers (s : List UInt8) : Members → ℕ → Prop
  | .last before name colonBefore colonAfter v _, p =>
    Scanned s v (p + (memberStart before name colonBefore colonAfter).length)
  | .more before name colonBefore colonAfter v after ms, p =>
    Scanned s v (p + (memberStart before name colonBefore colonAfter).length) ∧
      ScannedMembers s ms (p + (memberStart before name colonBefore colonAfter).length +
        v.text.length + after.1.length + 1)
end

theorem Scanned.findsEnd {v : Value} (h : Scanned s v p) :
    FindsEnd s p (some (p + v.text.length)) := by
  cases v with
  | arr es => exact h.1
  | obj ms => exact h.1
  | null | bool | str | num | emptyArr | emptyObj => exact h

/-- The bracket of an array is found: there is one element, with white space behind it. -/
def ElemsClose : Elems → Prop
  | .last _ _ after => after.1 ≠ []
  | .more _ _ _ _ => False

/-- The white space before the closing brace. -/
def lastAfter : Members → Ws
  | .last _ _ _ _ _ after => after
  | .more _ _ _ _ _ _ ms => lastAfter ms

mutual
/-- The scanner can handle a value with the text `t` behind it. Literals, strings and
empty objects are unproblematic. -/
def Handled : Value → List UInt8 → Prop
  | .num num, t => isSigned num ∧ ∀ c ∈ t.head?, endsNumber c
  | .emptyArr w, _ => w.1 = []
  | .arr es, t => ElemsClose es ∧ chr ',' ∉ t ∧ HandledElems es t
  | .obj ms, t => (lastAfter ms).1 ≠ [] ∧ chr ',' ∉ t ∧ HandledMembers ms t
  | _, _ => True

def HandledElems : Elems → List UInt8 → Prop
  | .last _ v after, t => Handled v (after.1 ++ chr ']' :: t)
  | .more _ v after es, t =>
    Handled v (after.1 ++ chr ',' :: es.text ++ t) ∧ HandledElems es t

def HandledMembers : Members → List UInt8 → Prop
  | .last _ _ _ _ v after, t => Handled v (after.1 ++ chr '}' :: t)
  | .more _ _ _ _ v after ms, t =>
    Handled v (after.1 ++ chr ',' :: ms.text ++ t) ∧ HandledMembers ms t
end

theorem FindsEnd.exists_fuel (h : FindsEnd s p o) : ∃ n₀, ∀ n ≥ n₀, findEnd s n p = .ok o := by
  obtain ⟨n₀, h⟩ := h
  exact ⟨n₀, fun n hn => findEnd_mono hn h⟩

/-- The result does not depend on the fuel, so that it may be asked for at any large one. -/
theorem findsEnd_iff (n₀ : ℕ) : FindsEnd s p o ↔ ∃ n ≥ n₀, findEnd s (n + 1) p = .ok o := by
  constructor
  · rintro ⟨n, h⟩
    exact ⟨max n n₀, Nat.le_max_right _ _, findEnd_mono (by omega) h⟩
  · rintro ⟨n, -, h⟩
    exact ⟨n + 1, h⟩

theorem findEnd_ws (h : At s p (w.1 ++ c :: r)) (hc : isspace c = false) (n : ℕ) :
    findEnd s n p = findEnd s n (p + w.1.length) := by
  cases n with
  | zero => rfl
  | succ n =>
    rw [findEnd, findEnd, skipWhile_at h w.isspace hc, skipWhile_stop h.append hc]

private theorem load_ne_zero (h : At s p (l ++ r)) (hl : l ≠ []) (h0 : 0 ∉ l) :
    ∃ c, load s p = .ok c ∧ c ≠ 0 := by
  obtain ⟨c, l, rfl⟩ := List.exists_cons_of_ne_nil hl
  exact ⟨c, load_at h, fun hc => h0 (by simp [hc])⟩

theorem strBody_body (u : Str) : StrBody u.body := by
  induction u with
  | nil => exact .nil
  | cons u us ih =>
    refine StrBody.append ?_ ih
    have hx (d : { c : UInt8 // isxdigit c = true }) (l : List UInt8) (hl : StrBody l) :
        StrBody (d.1 :: l) := by
      refine .plain ?_ ?_ ?_ hl <;> intro h <;> exact absurd (h ▸ d.2) (by decide)
    cases u with
    | plain c h => exact .plain (by rintro rfl; exact absurd h.1 (by decide)) h.2.1 h.2.2 .nil
    | short c h => exact .escaped (by rintro rfl; exact absurd h (by decide)) .nil
    | unicode d₃ d₂ d₁ d₀ => exact .escaped (by decide) (hx _ _ (hx _ _ (hx _ _ (hx _ _ .nil))))

variable {find : ℕ → Scan (Option ℕ)} {before colonBefore colonAfter : Ws} {name : Str}
  {sep : List UInt8}

/-- One turn of the object loop over a member whose value ends at `e`. -/
theorem objLoop_member (hsep : sep = [] ∨ sep = [chr ','])
    (h : At s p (sep ++ (memberStart before name colonBefore colonAfter ++ (c :: l ++ r))))
    (hc : isspace c = false) (hmem : chr '}' ∈ c :: l) (h0 : 0 ∉ c :: l)
    (hfind : find (p + sep.length + (memberStart before name colonBefore colonAfter).length) =
      .ok (some e)) (n : ℕ) :
    objLoop s find (n + 1) p = closeStep s e (chr '}') (objLoop s find n) := by
  obtain ⟨start, hstart⟩ : ∃ start, start = sep ++ before.1 := ⟨_, rfl⟩
  have hws (d : UInt8) (hd : isWs d = false) (hne : d ≠ chr ',') : d ∉ start := by
    rcases hsep with rfl | rfl <;> simp [hstart, before.not_mem hd, hne]
  have hstart0 : 0 ∉ start := hws 0 (by decide) (by decide)
  have hnext : At s p (start ++ (chr '"' :: name.body ++ chr '"' :: (colonBefore.1 ++
      chr ':' :: (colonAfter.1 ++ c :: (l ++ r))))) := by
    simpa [memberStart, hstart] using h
  have hkey := hnext.append
  have hkeyEnd := findStrEnd_at (strBody_body name) hkey
  have hcolon : At s (p + start.length + name.body.length + 2) (colonBefore.1 ++
      chr ':' :: (colonAfter.1 ++ c :: (l ++ r))) := by
    have := hkey.append.cons
    rwa [List.length_cons] at this
  have hvalue := hcolon.append.cons
  have hpos : p + start.length + name.body.length + 2 + colonBefore.1.length + 1 +
      colonAfter.1.length =
        p + sep.length + (memberStart before name colonBefore colonAfter).length := by
    simp [memberStart, hstart]
    omega
  obtain ⟨d, hload, hd⟩ := load_ne_zero (l := start ++ [chr '"'])
    (r := name.body ++ chr '"' :: (colonBefore.1 ++ chr ':' :: (colonAfter.1 ++ c :: (l ++ r))))
    (by simpa using hnext) (by simp) (by simp [hstart0, chr])
  have hbrace : ∃ q, strchr s p (chr '}') = .ok (some q) ∧ ¬ q < p + start.length := by
    obtain ⟨q, hq, hle, -⟩ := strchr_mem (c := chr '}') (l := chr '"' :: name.body ++ chr '"' ::
      (colonBefore.1 ++ chr ':' :: (colonAfter.1 ++ c :: l))) (r := r) (by simpa using hkey)
      (by simp at hmem ⊢; tauto)
      (by simp [name.zero_not_mem, chr] at h0 ⊢; exact h0)
    exact ⟨q, (strchr_append hnext (hws _ (by decide) (by decide)) hstart0).trans hq,
      Nat.not_lt.mpr hle⟩
  obtain ⟨q, hq, hle⟩ := hbrace
  have hquote : strchr s p (chr '"') = .ok (some (p + start.length)) :=
    strchr_at hnext (hws _ (by decide) (by decide)) hstart0
  have hcolonAt := strchr_at hcolon (colonBefore.not_mem (by decide)) colonBefore.zero_not_mem
  have hskip := skipWhile_at hvalue colonAfter.isspace hc
  rw [objLoop, hload, ok_bind, if_neg hd]
  simp only [hq, ok_bind, hquote, if_neg hle, hkeyEnd, hcolonAt, hskip, hpos, hfind]
  rfl

/-- One turn of the array loop over an element that ends at `e`. -/
theorem arrLoop_elem (h : At s p (w.1 ++ (c :: r))) (hc : isspace c = false)
    (h0 : c ≠ 0) (hfind : find (p + w.1.length) = .ok (some e)) (n : ℕ) :
    arrLoop s find (n + 1) p = closeStep s e (chr ']') (arrLoop s find n) := by
  obtain ⟨d, hload, hd⟩ := load_ne_zero (l := w.1 ++ [c]) (r := r) (by simpa using h)
    (by simp) (by simp [Ne.symm h0])
  rw [arrLoop, hload, ok_bind, if_neg hd, skipWhile_at h w.isspace hc]
  simp only [hfind, ok_bind]
  rfl

/-- In front of a comma the array loop makes no progress. -/
theorem arrLoop_comma (h : At s p (chr ',' :: r)) (n m : ℕ) (q : ℕ) :
    arrLoop s (findEnd s n) m p ≠ .ok (some q) := by
  have hnum : findNumEnd s p = .ok (some p) := by
    have hd : isdigit (chr ',') = false := by decide
    have hne : chr ',' ≠ chr '-' ∧ chr ',' ≠ 0 ∧ chr ',' ≠ chr '.' ∧
        tolower (chr ',') ≠ chr 'e' := by decide
    rw [findNumEnd, load_at h, ok_bind, if_neg hne.1]
    simp only [skipWhile_stop h hd, load_at h, ok_bind, if_neg hne.2.1, if_neg hne.2.2.1]
    rw [findNumEnd.numExp, load_at h, ok_bind, if_neg hne.2.2.2, numStop_at h]
    rfl
  induction m with
  | zero => exact nofun
  | succ m ih =>
    cases n with
    | zero =>
      rw [arrLoop, load_at h, ok_bind, if_neg (by decide), skipWhile_stop h (by decide)]
      simp [findEnd]
    | succ n =>
      have hfind : findEnd s (n + 1) p = .ok (some p) := by
        rw [findEnd, skipWhile_stop h (by decide), ok_bind, load_at h, ok_bind]
        simpa [chr] using hnum
      rw [arrLoop_elem (w := ⟨[], by simp⟩) h (by decide) (by decide) hfind, closeStep,
        strchr_here h]
      cases strchr s (p + 1) (chr ']') with
      | error stop => simp
      | ok o =>
        cases o with
        | none => simp
        | some q' => simpa using ih

theorem brace_mem_text (ms : Members) : chr '}' ∈ ms.text := by
  cases ms with
  | last => simp [Members.text]
  | more _ _ _ _ _ _ ms => simp [Members.text, brace_mem_text ms]

/-- The object loop over members whose values are all scanned arrives at the last one. -/
theorem objLoop_run : (ms : Members) → {p : ℕ} → (sep : List UInt8) →
    (sep = [] ∨ sep = [chr ',']) → At s p (sep ++ (ms.text ++ (t ++ 0 :: r))) →
    ScannedMembers s ms (p + sep.length) →
    ∃ e n₀ k, At s e ((lastAfter ms).1 ++ chr '}' :: (t ++ 0 :: r)) ∧
      e + (lastAfter ms).1.length + 1 = p + sep.length + ms.text.length ∧
      ∀ n ≥ n₀, ∀ m, objLoop s (findEnd s n) (m + k + 1) p =
        closeStep s e (chr '}') (objLoop s (findEnd s n) m)
  | .last before name colonBefore colonAfter v after, p, sep, hsep, h, hs => by
    obtain ⟨c, l, hv, hc, -⟩ := v.exists_cons
    obtain ⟨n₀, hn₀⟩ := FindsEnd.exists_fuel (Scanned.findsEnd hs)
    have h0 : 0 ∉ c :: (l ++ (after.1 ++ [chr '}'])) := by
      have := v.zero_not_mem
      rw [hv] at this
      simpa [chr] using this
    have hm : At s p (sep ++ (memberStart before name colonBefore colonAfter ++
        (c :: (l ++ (after.1 ++ [chr '}'])) ++ (t ++ 0 :: r)))) := by
      simpa [Members.text, hv] using h
    have hend : At s p ((sep ++ memberStart before name colonBefore colonAfter ++ v.text) ++
        (after.1 ++ chr '}' :: (t ++ 0 :: r))) := by
      simpa [Members.text] using h
    refine ⟨_, n₀, 0, by simpa [Nat.add_assoc, lastAfter] using hend.append, ?_, fun n hn m =>
      objLoop_member hsep hm hc (by simp) h0 (by simpa [Nat.add_assoc] using hn₀ n hn) m⟩
    simp [Members.text, lastAfter]
    omega
  | .more before name colonBefore colonAfter v after ms, p, sep, hsep, h, hs => by
    obtain ⟨c, l, hv, hc, -⟩ := v.exists_cons
    obtain ⟨hsv, hsms⟩ := hs
    obtain ⟨n₀, hn₀⟩ := FindsEnd.exists_fuel hsv.findsEnd
    have h0 : 0 ∉ c :: (l ++ (after.1 ++ chr ',' :: ms.text)) := by
      have := v.zero_not_mem
      rw [hv] at this
      simpa [chr, ms.zero_not_mem] using this
    have hm : At s p (sep ++ (memberStart before name colonBefore colonAfter ++
        (c :: (l ++ (after.1 ++ chr ',' :: ms.text)) ++ (t ++ 0 :: r)))) := by
      simpa [Members.text, hv] using h
    have hend : At s p ((sep ++ memberStart before name colonBefore colonAfter ++ v.text) ++
        (after.1 ++ chr ',' :: (ms.text ++ (t ++ 0 :: r)))) := by
      simpa [Members.text] using h
    have hcomma := hend.append.append
    obtain ⟨e, n₁, k, he, hlen, hrun⟩ := objLoop_run ms [chr ','] (.inr rfl) hcomma
      (by simpa [Nat.add_assoc] using hsms)
    refine ⟨e, max n₀ n₁, k + 1, he, ?_, fun n hn m => ?_⟩
    · simp [Members.text, lastAfter] at hlen ⊢
      omega
    · have hbrace := brace_mem_text ms
      rw [← Nat.add_assoc, objLoop_member hsep hm hc (by simp [hbrace]) h0
        (by simpa [Nat.add_assoc] using hn₀ n (by omega)), closeStep_comma
        (by simpa [Nat.add_assoc] using hend.append) hbrace ms.zero_not_mem]
      simpa [Nat.add_assoc] using hrun n (by omega) m

private theorem findEnd_obj (h : At s p (chr '{' :: l)) (n : ℕ) :
    findEnd s (n + 1) p = objLoop s (findEnd s n) n (p + 1) := by
  rw [findEnd, skipWhile_stop h (by decide), ok_bind, load_at h, ok_bind, if_neg (by decide),
    if_pos rfl]

private theorem findEnd_arr (h : At s p (chr '[' :: l)) (n : ℕ) :
    findEnd s (n + 1) p = findArrEnd s (findEnd s n) n p := by
  rw [findEnd, skipWhile_stop h (by decide), ok_bind, load_at h, ok_bind, if_neg (by decide),
    if_neg (by decide), if_pos rfl]

/-- An object whose member values are all scanned. -/
theorem obj_iff (ms : Members) (h : At s p (chr '{' :: (ms.text ++ (t ++ 0 :: r)))) (ht : 0 ∉ t)
    (hs : ScannedMembers s ms (p + 1)) :
    FindsEnd s p (some (p + (Value.obj ms).text.length)) ↔
      (lastAfter ms).1 ≠ [] ∧ chr ',' ∉ t := by
  obtain ⟨e, n₀, k, he, hlen, hrun⟩ := objLoop_run ms [] (.inl rfl) h.cons hs
  have hend : p + (Value.obj ms).text.length = e + (lastAfter ms).1.length + 1 := by
    simp [Value.text] at hlen ⊢
    omega
  have hlast (n m : ℕ) := closeStep_last (objLoop s (findEnd s n) m) he ht (by decide)
    (objLoop_ahead (findEnd_ahead s n) m)
  have hfuel (n : ℕ) (hn : n ≥ n₀ + k + 1) : findEnd s (n + 1) p =
      closeStep s e (chr '}') (objLoop s (findEnd s n) (n - (k + 1))) := by
    have := hrun n (by omega) (n - (k + 1))
    rw [findEnd_obj h, ← this]
    congr 1
    omega
  rw [hend, findsEnd_iff (n₀ + k + 1)]
  constructor
  · rintro ⟨n, hn, hr⟩
    rw [hfuel n hn, hlast] at hr
    exact hr
  · intro hcond
    refine ⟨n₀ + k + 1, Nat.le_refl _, ?_⟩
    rw [hfuel _ (Nat.le_refl _), hlast]
    exact hcond

private theorem findArrEnd_elems (h : At s p (chr '[' :: (before.1 ++ (c :: l ++ r))))
    (hc : isspace c = false ∧ c ≠ chr ']') (hmem : chr ']' ∈ l) (h0 : 0 ∉ c :: l)
    (find : ℕ → Scan (Option ℕ)) (n : ℕ) :
    findArrEnd s find n p = arrLoop s find n (p + 1) := by
  obtain ⟨d, l', hd, hne, hd0⟩ : ∃ d l', before.1 ++ (c :: l ++ r) = d :: l' ∧ d ≠ chr ']' ∧
      d ≠ 0 := by
    cases hb : before.1 with
    | nil => exact ⟨c, l ++ r, rfl, hc.2, fun h => h0 (by simp [h])⟩
    | cons d w =>
      have hd := before.2 d (by simp [hb])
      exact ⟨d, w ++ (c :: l ++ r), rfl, by rintro rfl; exact absurd hd (by decide),
        by rintro rfl; exact absurd hd (by decide)⟩
  obtain ⟨q, hq, -⟩ := strchr_mem (c := chr ']') (l := before.1 ++ c :: l) (r := r)
    (by simpa using h.cons) (by simp [hmem]) (by simpa using h0)
  have hlt : p + 1 ≠ q := by
    have hstep := strchr_step (hd ▸ h.cons) hne hd0
    have := strchr_returns s (p + 1 + 1) (chr ']') _ (hstep ▸ hq) q rfl
    omega
  rw [findArrEnd, hq, ok_bind]
  simp [hlt]

/-- The first turn of the array loop, when the end of the first element is found. -/
private theorem findEnd_first {v : Value} (rest : List UInt8)
    (h : At s p (chr '[' :: (before.1 ++ (v.text ++ (rest ++ r))))) (hmem : chr ']' ∈ rest)
    (h0 : 0 ∉ rest) (hs : FindsEnd s (p + 1 + before.1.length)
      (some (p + 1 + before.1.length + v.text.length))) :
    ∃ n₀, ∀ n ≥ n₀, findEnd s (n + 2) p = closeStep s (p + 1 + before.1.length + v.text.length)
      (chr ']') (arrLoop s (findEnd s (n + 1)) n) := by
  obtain ⟨c, l, hv, hc⟩ := v.exists_cons
  obtain ⟨n₀, hn₀⟩ := FindsEnd.exists_fuel hs
  have h0 : 0 ∉ c :: (l ++ rest) := by
    have := v.zero_not_mem
    rw [hv] at this
    simpa [h0] using this
  have hm : At s p (chr '[' :: (before.1 ++ (c :: (l ++ rest) ++ r))) := by simpa [hv] using h
  refine ⟨n₀, fun n hn => ?_⟩
  rw [findEnd_arr h, findArrEnd_elems hm hc (by simp [hmem]) h0,
    arrLoop_elem hm.cons hc.1 (fun hz => h0 (by simp [hz])) (hn₀ _ (by omega))]

theorem bracket_mem_text (es : Elems) : chr ']' ∈ es.text := by
  cases es with
  | last => simp [Elems.text]
  | more _ _ _ es => simp [Elems.text, bracket_mem_text es]

theorem arr_iff (es : Elems) (h : At s p (chr '[' :: (es.text ++ (t ++ 0 :: r)))) (ht : 0 ∉ t)
    (hs : ScannedElems s es (p + 1)) :
    FindsEnd s p (some (p + (Value.arr es).text.length)) ↔ ElemsClose es ∧ chr ',' ∉ t := by
  cases es with
  | last before v after =>
    obtain ⟨n₀, hrun⟩ := findEnd_first (after.1 ++ [chr ']']) (r := t ++ 0 :: r)
      (by simpa [Elems.text] using h) (by simp) (by simp [chr]) (Scanned.findsEnd hs)
    have he : At s (p + 1 + before.1.length + v.text.length) (after.1 ++ chr ']' ::
        (t ++ 0 :: r)) := by
      have : At s (p + 1) ((before.1 ++ v.text) ++ (after.1 ++ chr ']' :: (t ++ 0 :: r))) := by
        simpa [Elems.text] using h.cons
      simpa [Nat.add_assoc] using this.append
    have hend : p + (Value.arr (.last before v after)).text.length =
        p + 1 + before.1.length + v.text.length + after.1.length + 1 := by
      simp [Value.text, Elems.text]
      omega
    have hlast (n : ℕ) := closeStep_last (arrLoop s (findEnd s (n + 1)) n) he ht
      (by decide) (arrLoop_ahead (findEnd_ahead s (n + 1)) n)
    rw [hend, findsEnd_iff (n₀ + 1)]
    constructor
    · rintro ⟨n, hn, hr⟩
      obtain ⟨m, rfl⟩ := Nat.exists_eq_add_one_of_ne_zero (Nat.ne_zero_of_lt hn)
      rw [hrun m (by omega), hlast] at hr
      exact hr
    · intro hcond
      refine ⟨n₀ + 1, Nat.le_refl _, ?_⟩
      rw [hrun _ (Nat.le_refl _), hlast]
      exact hcond
  | more before v after es =>
    obtain ⟨n₀, hrun⟩ := findEnd_first (after.1 ++ chr ',' :: es.text) (r := t ++ 0 :: r)
      (by simpa [Elems.text] using h) (by simp [bracket_mem_text])
      (by simp [chr, es.zero_not_mem]) hs.1.findsEnd
    have he : At s (p + 1 + before.1.length + v.text.length) (after.1 ++ chr ',' ::
        (es.text ++ (t ++ 0 :: r))) := by
      have : At s (p + 1) ((before.1 ++ v.text) ++ (after.1 ++ chr ',' ::
          (es.text ++ (t ++ 0 :: r)))) := by
        simpa [Elems.text] using h.cons
      simpa [Nat.add_assoc] using this.append
    -- the loop stays at the comma behind the first element
    refine iff_of_false (fun hr => ?_) (fun hcond => hcond.1)
    obtain ⟨n, hn, hr⟩ := (findsEnd_iff (n₀ + 1)).mp hr
    obtain ⟨m, rfl⟩ := Nat.exists_eq_add_one_of_ne_zero (Nat.ne_zero_of_lt hn)
    rw [hrun m (by omega), closeStep_comma he (bracket_mem_text es) es.zero_not_mem] at hr
    exact arrLoop_comma he.append _ _ _ hr

theorem emptyObj_findsEnd (w : Ws) (h : At s p (chr '{' :: (w.1 ++ chr '}' :: (t ++ 0 :: r))))
    (ht : 0 ∉ t) : FindsEnd s p (some (p + (Value.emptyObj w).text.length)) := by
  refine ⟨2, ?_⟩
  have hbody := h.cons
  have hbrace := strchr_at hbody (w.not_mem (by decide)) w.zero_not_mem
  obtain ⟨d, hload, hd⟩ := load_ne_zero (l := w.1 ++ [chr '}']) (r := t ++ 0 :: r)
    (by simpa using hbody) (by simp) (by simp [chr])
  have hquote : strchr s (p + 1) (chr '"') = strchr s (p + 1 + w.1.length + 1) (chr '"') := by
    rw [strchr_append hbody (w.not_mem (by decide)) w.zero_not_mem,
      strchr_step hbody.append (by decide) (by decide)]
  have hlen : (Value.emptyObj w).text.length = w.1.length + 2 := by simp [Value.text]
  rw [findEnd_obj h, objLoop, hload, ok_bind, if_neg hd, hbrace, hquote, hlen]
  rcases strchr_total (c := chr '"') hbody.append.cons ht with hnone | ⟨q, -, hq, hle, -⟩
  · simp [(hnone (by decide)).2]
    omega
  · have hlt : p + 1 + w.1.length < q := by omega
    simp [hq, hlt]
    omega

/-- In an array without elements, white space is taken for the start of an element. -/
theorem emptyArr_iff (w : Ws) (h : At s p (chr '[' :: (w.1 ++ chr ']' :: r))) :
    FindsEnd s p (some (p + (Value.emptyArr w).text.length)) ↔ w.1 = [] := by
  have hbody := h.cons
  have hbracket := strchr_at hbody (w.not_mem (by decide)) w.zero_not_mem
  constructor
  · intro hr
    by_contra hw
    have hlt : p + 1 ≠ p + 1 + w.1.length := by
      have := List.length_pos_iff.mpr hw
      omega
    have hclose := hbody.append
    have hne : isdigit (chr ']') = false ∧ chr ']' ≠ chr '-' ∧ chr ']' ≠ 0 ∧
        chr ']' ≠ chr '.' ∧ tolower (chr ']') ≠ chr 'e' := by decide
    have hnum : findNumEnd s (p + 1 + w.1.length) = .ok none := by
      rw [findNumEnd, load_at hclose, ok_bind, if_neg hne.2.1]
      simp only [skipWhile_stop hclose hne.1, load_at hclose, ok_bind, if_neg hne.2.2.1,
        if_neg hne.2.2.2.1]
      rw [findNumEnd.numExp, load_at hclose, ok_bind, if_neg hne.2.2.2.2, numStop_at hclose]
      rfl
    have hfind : findEnd s 1 (p + 1 + w.1.length) = .ok none := by
      rw [findEnd, skipWhile_stop hclose (by decide), ok_bind, load_at hclose, ok_bind]
      simpa [chr] using hnum
    obtain ⟨d, hload, hd⟩ := load_ne_zero (l := w.1 ++ [chr ']']) (r := r)
      (by simpa using hbody) (by simp) (by simp [chr])
    have hnone : FindsEnd s p none := by
      refine ⟨2, ?_⟩
      rw [findEnd_arr h, findArrEnd, hbracket, ok_bind]
      simp only [if_neg hlt]
      rw [arrLoop, hload, ok_bind, if_neg hd, skipWhile_at hbody w.isspace (by decide)]
      simp [hfind]
    exact absurd (FindsEnd.unique hr hnone) (by simp)
  · intro hw
    rw [hw, List.length_nil, Nat.add_zero] at hbracket
    refine ⟨1, ?_⟩
    rw [findEnd_arr h, findArrEnd, hbracket, ok_bind]
    simp [Value.text, hw]

theorem class_of_isdigit (hc : isdigit c = true) :
    isspace c = false ∧ c ≠ 0 ∧ c ≠ chr '{' ∧ c ≠ chr '[' ∧ c ≠ chr '"' ∧
      c ≠ chr 'n' ∧ c ≠ chr 't' ∧ c ≠ chr 'f' := by
  refine ⟨not_isspace_of_isdigit hc, ?_⟩
  refine ⟨?_, ?_, ?_, ?_, ?_, ?_, ?_⟩ <;> rintro rfl <;> exact absurd hc (by decide)

theorem num_iff (num : Number) (h : At s p (num.text ++ c :: r)) (hc : FollowChar c) :
    FindsEnd s p (some (p + num.text.length)) ↔ isSigned num ∧ endsNumber c := by
  obtain ⟨d, l, hd, hfirst⟩ := num.exists_cons
  have hdisp (n : ℕ) : findEnd s (n + 1) p = findNumEnd s p := by
    have h' : At s p (d :: (l ++ c :: r)) := by simpa [hd] using h
    have hne : isspace d = false ∧ d ≠ 0 ∧ d ≠ chr '{' ∧ d ≠ chr '[' ∧ d ≠ chr '"' ∧
        d ≠ chr 'n' ∧ d ≠ chr 't' ∧ d ≠ chr 'f' := by
      rcases hfirst with rfl | hdigit
      · decide
      · exact class_of_isdigit hdigit
    rw [findEnd, skipWhile_stop h' hne.1, ok_bind, load_at h', ok_bind]
    simp [hne]
  have hnum := findNumEnd_at num h hc
  constructor
  · rintro hr
    obtain ⟨n, -, hr⟩ := (findsEnd_iff 0).mp hr
    rw [hdisp, hnum] at hr
    by_contra hno
    simp [hno] at hr
  · intro hcond
    exact ⟨1, by rw [hdisp, hnum, if_pos hcond]⟩

theorem literal_findsEnd {v : Value} (hv : v = .null ∨ ∃ b, v = .bool b)
    (h : At s p (v.text ++ r)) : FindsEnd s p (some (p + v.text.length)) := by
  refine ⟨1, ?_⟩
  obtain rfl | ⟨_ | _, rfl⟩ := hv
  all_goals
    have h' := h
    simp only [Value.text, List.map_cons, List.cons_append] at h'
    rw [findEnd, skipWhile_stop h' (by decide), ok_bind, load_at h', ok_bind]
    rfl

private theorem str_findsEnd (u : Str) (h : At s p ((Value.str u).text ++ r)) :
    FindsEnd s p (some (p + (Value.str u).text.length)) := by
  have h' : At s p (chr '"' :: u.body ++ chr '"' :: r) := by simpa [Value.text] using h
  refine ⟨1, ?_⟩
  rw [findEnd_quote h', findStrEnd_at (strBody_body u) h']
  simp [Value.text, Nat.add_assoc]

theorem Follow.char (ht : Follow t) : ∃ c l, t ++ 0 :: r = c :: l ∧ FollowChar c ∧
    ((∀ c ∈ t.head?, endsNumber c) ↔ endsNumber c) := by
  cases t with
  | nil => exact ⟨0, r, rfl, .inl rfl, by simp [endsNumber]⟩
  | cons c t => exact ⟨c, t ++ 0 :: r, rfl, .inr (ht.head c rfl), by simp⟩

/-- White space and a character of the surrounding value may follow a value. -/
theorem follow_append (w : Ws) (hc : c = chr ',' ∨ c = chr ']' ∨ c = chr '}') (ht : 0 ∉ t) :
    Follow (w.1 ++ c :: t) := by
  have hc0 : 0 ≠ c := by rcases hc with rfl | rfl | rfl <;> decide
  refine ⟨by simp [ht, hc0], ?_⟩
  cases hw : w.1 with
  | nil => simpa using .inr hc
  | cons d l =>
    have := w.2 d (by simp [hw])
    simp [this]

mutual
/-- Every value is scanned in place exactly when the condition holds. -/
theorem scanned_iff : (v : Value) → {p : ℕ} → {t : List UInt8} →
    At s p (v.text ++ (t ++ 0 :: r)) → Follow t → (Scanned s v p ↔ Handled v t)
  | .null, p, t, h, _ => iff_of_true (literal_findsEnd (.inl rfl) h) trivial
  | .bool b, p, t, h, _ => iff_of_true (literal_findsEnd (.inr ⟨b, rfl⟩) h) trivial
  | .str u, p, t, h, _ => iff_of_true (str_findsEnd u h) trivial
  | .num num, p, t, h, ht => by
    obtain ⟨c, l, hl, hc, hends⟩ := Follow.char (r := r) ht
    rw [hl] at h
    rw [Handled, hends]
    exact num_iff num h hc
  | .emptyArr w, p, t, h, _ => emptyArr_iff w (by simpa [Value.text] using h)
  | .emptyObj w, p, t, h, ht =>
    iff_of_true (emptyObj_findsEnd w (by simpa [Value.text] using h) ht.zero_not_mem) trivial
  | .arr es, p, t, h, ht => by
    have hes := scannedElems_iff es h.cons ht.zero_not_mem
    rw [Scanned, Handled, ← hes, ← and_assoc]
    exact and_congr_left fun hs => arr_iff es h ht.zero_not_mem hs
  | .obj ms, p, t, h, ht => by
    have hms := scannedMembers_iff ms h.cons ht.zero_not_mem
    rw [Scanned, Handled, ← hms, ← and_assoc]
    exact and_congr_left fun hs => obj_iff ms h ht.zero_not_mem hs

theorem scannedElems_iff : (es : Elems) → {p : ℕ} → {t : List UInt8} →
    At s p (es.text ++ (t ++ 0 :: r)) → 0 ∉ t → (ScannedElems s es p ↔ HandledElems es t)
  | .last before v after, p, t, h, ht => by
    have h' : At s p (before.1 ++ (v.text ++ ((after.1 ++ chr ']' :: t) ++ 0 :: r))) := by
      simpa [Elems.text] using h
    exact scanned_iff v h'.append (follow_append after (.inr (.inl rfl)) ht)
  | .more before v after es, p, t, h, ht => by
    have h' : At s p (before.1 ++ (v.text ++ ((after.1 ++ chr ',' :: (es.text ++ t)) ++
        0 :: r))) := by
      simpa [Elems.text] using h
    have hv := scanned_iff v h'.append
      (follow_append after (.inl rfl) (by simp [es.zero_not_mem, ht]))
    have hes : At s p ((before.1 ++ (v.text ++ (after.1 ++ [chr ',']))) ++
        (es.text ++ (t ++ 0 :: r))) := by
      simpa [Elems.text] using h
    have hes := scannedElems_iff es hes.append ht
    rw [ScannedElems, HandledElems, ← hes]
    simp [hv, Nat.add_assoc]

theorem scannedMembers_iff : (ms : Members) → {p : ℕ} → {t : List UInt8} →
    At s p (ms.text ++ (t ++ 0 :: r)) → 0 ∉ t → (ScannedMembers s ms p ↔ HandledMembers ms t)
  | .last before name colonBefore colonAfter v after, p, t, h, ht => by
    have h' : At s p (memberStart before name colonBefore colonAfter ++ (v.text ++
        ((after.1 ++ chr '}' :: t) ++ 0 :: r))) := by
      simpa [Members.text] using h
    exact scanned_iff v h'.append (follow_append after (.inr (.inr rfl)) ht)
  | .more before name colonBefore colonAfter v after ms, p, t, h, ht => by
    have h' : At s p (memberStart before name colonBefore colonAfter ++ (v.text ++
        ((after.1 ++ chr ',' :: (ms.text ++ t)) ++ 0 :: r))) := by
      simpa [Members.text] using h
    have hv := scanned_iff v h'.append
      (follow_append after (.inl rfl) (by simp [ms.zero_not_mem, ht]))
    have hms : At s p ((memberStart before name colonBefore colonAfter ++ (v.text ++
        (after.1 ++ [chr ',']))) ++ (ms.text ++ (t ++ 0 :: r))) := by
      simpa [Members.text] using h
    have hms := scannedMembers_iff ms hms.append ht
    rw [ScannedMembers, HandledMembers, ← hms]
    simp [hv, Nat.add_assoc]
end

/-- Wherever the text lies in memory, the call returns the position just past the value. -/
def ScansValue (w : Ws) (v : Value) (t : List UInt8) : Prop :=
  ∀ pre post, FindsEnd (pre ++ (w.1 ++ (v.text ++ (t ++ 0 :: post)))) pre.length
    (some (pre.length + w.1.length + v.text.length))

/-- The same of the value and of every value inside it, in its place. -/
def ScansThroughout (w : Ws) (v : Value) (t : List UInt8) : Prop :=
  ScansValue w v t ∧ ∀ pre post,
    Scanned (pre ++ (w.1 ++ (v.text ++ (t ++ 0 :: post)))) v (pre.length + w.1.length)

/-- The scanner is right about a value and everything inside it exactly when the value
is handled with the text behind it, and then it returns the value's end. -/
theorem scansThroughout_iff (w : Ws) (v : Value) (ht : Follow t) :
    (ScansThroughout w v t ↔ Handled v t) ∧ (Handled v t → ScansValue w v t) := by
  have hat (pre post : List UInt8) : At (pre ++ (w.1 ++ (v.text ++ (t ++ 0 :: post))))
      (pre.length + w.1.length) (v.text ++ (t ++ 0 :: post)) := (at_append pre _).append
  have hscan : Handled v t → ScansValue w v t := by
    intro hv pre post
    obtain ⟨n, hn⟩ := ((scanned_iff v (hat pre post) ht).mpr hv).findsEnd
    obtain ⟨c, l, hc, hspace, -⟩ := v.exists_cons
    refine ⟨n, ?_⟩
    rw [← hn]
    exact findEnd_ws (by simpa [hc] using at_append pre _) hspace n
  refine ⟨⟨fun h => (scanned_iff v (hat [] []) ht).mp (h.2 [] []), fun hv => ⟨hscan hv, ?_⟩⟩, hscan⟩
  exact fun pre post => (scanned_iff v (hat pre post) ht).mpr hv

def nameA : Str := [.plain (chr 'a') (by decide)]

/-- The object `{"a": [1] }`, with white space behind the number. -/
def wrapped (after : Ws) : Value :=
  .obj (.last ⟨[], by decide⟩ nameA ⟨[], by decide⟩
    ⟨[chr ' '], by decide⟩ (.arr (.last ⟨[], by decide⟩
      (.num ⟨false, ⟨[chr '1'], by decide⟩, by decide, none, none⟩) after)) ⟨[chr ' '], by decide⟩)

/-- With and without a blank between the number and the bracket, and a bracket behind the object. -/
theorem scansThroughout_iff_wrapped :
    (wrapped ⟨[chr ' '], by decide⟩).text =
        ['{', '"', 'a', '"', ':', ' ', '[', '1', ' ', ']', ' ', '}'].map chr ∧
      ScansThroughout ⟨[chr ' '], by decide⟩ (wrapped ⟨[chr ' '], by decide⟩) [chr ']'] ∧
      ScansValue ⟨[chr ' '], by decide⟩ (wrapped ⟨[chr ' '], by decide⟩) [chr ']'] ∧
      ¬ ScansThroughout ⟨[chr ' '], by decide⟩ (wrapped ⟨[], by decide⟩) [chr ']'] := by
  have ht : Follow [chr ']'] := ⟨by decide, by decide⟩
  obtain ⟨hblank, hvalue⟩ :=
    scansThroughout_iff ⟨[chr ' '], by decide⟩ (wrapped ⟨[chr ' '], by decide⟩) ht
  obtain ⟨hbare, -⟩ := scansThroughout_iff ⟨[chr ' '], by decide⟩ (wrapped ⟨[], by decide⟩) ht
  have hhandled : Handled (wrapped ⟨[chr ' '], by decide⟩) [chr ']'] :=
    ⟨by decide, by decide, List.cons_ne_nil _ _, by decide, rfl, by decide⟩
  refine ⟨rfl, hblank.mpr hhandled, hvalue hhandled, fun h => ?_⟩
  obtain ⟨-, -, hclose, -⟩ := hbare.mp h
  exact hclose rfl

/-- The array `[1]`. -/
def lone : Value :=
  .arr (.last ⟨[], by decide⟩
    (.num ⟨false, ⟨[chr '1'], by decide⟩, by decide, none, none⟩) ⟨[], by decide⟩)

theorem not_scansValue_lone :
    lone.text = ['[', '1', ']'].map chr ∧ Follow [] ∧ ¬ ScansValue ⟨[], by decide⟩ lone [] := by
  refine ⟨rfl, ⟨by simp, by simp⟩, fun h => ?_⟩
  have hnone : FindsEnd (['[', '1', ']'].map chr ++ [0]) 0 none := ⟨2, rfl⟩
  exact absurd (FindsEnd.unique (h [] []) hnone) (by simp)

end Libuo.JsonValueEnds
