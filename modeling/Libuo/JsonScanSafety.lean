import Libuo.JsonMembers
import Libuo.JsonPlaces
import Mathlib.Data.List.DropRight

/-!
# Which texts are scanned inside of their block

The scanner over any terminated text, JSON or not. It goes wrong in three ways: the text ends
inside of a literal, a value inside of another one is the end of the text, from behind which the
closing bracket is searched, and a comma in an array is never passed. A text is scanned inside of
its block if and only if no value that is visited is one of these.
-/

namespace Libuo.JsonScanSafety
open CStrings Json JsonStrings JsonScanner JsonValueEnds JsonMembers JsonPlaces

/-- The length of the literal that begins with a character. -/
def literalLength (c : UInt8) : Option ℕ :=
  if c = chr 'n' then some 4
  else if c = chr 't' then some 4
  else if c = chr 'f' then some 5
  else none

/-- The characters at which a number is expected. -/
def beginsNumber (c : UInt8) : Prop :=
  isspace c = false ∧ c ≠ chr '{' ∧ c ≠ chr '[' ∧ c ≠ chr '"' ∧ literalLength c = none

/-- A member of an object and its value, with a brace somewhere behind the place in the object. -/
def Member (t name v : List UInt8) : Prop :=
  chr '}' ∈ t ∧ ∃ a b u, t = a ++ chr '"' :: (name ++ chr '"' :: (b ++ chr ':' :: u)) ∧
    chr '"' ∉ a ∧ chr '}' ∉ a ∧ StrBody name ∧ chr ':' ∉ b ∧ v = u.dropWhile isspace

/-- Behind the value before `u` there is no comma, and the bracket is found from the next character
on. -/
def Closes (close : UInt8) (u r : List UInt8) : Prop :=
  chr ',' ∉ u ∧ ∃ c a, u = c :: (a ++ close :: r) ∧ close ∉ a

/-- What is read: a value, or the members of an object from a place in it, up to the one with the
name that is wanted. -/
inductive Part where
  | value
  | members (wanted : Option (List UInt8))

/-- What is left of a text behind a value, or in front of the value that is wanted. -/
inductive Ends : Part → List UInt8 → List UInt8 → Prop
  | literal {c a r} : literalLength c = some (a.length + 1) → Ends .value (c :: (a ++ r)) r
  | str {b r} : StrBody b → Ends .value (chr '"' :: (b ++ chr '"' :: r)) r
  | num {c t r} : beginsNumber c → numEnd (c :: t) = some r → Ends .value (c :: t) r
  | obj {t r} : Ends (.members none) t r → Ends .value (chr '{' :: t) r
  | emptyArr {r} : Ends .value (chr '[' :: chr ']' :: r) r
  | arr {t u r} : t.head? ≠ some (chr ']') → Ends .value (t.dropWhile isspace) u →
      Closes (chr ']') u r → Ends .value (chr '[' :: t) r
  | noMember {a r} : chr '}' ∉ a → chr '"' ∉ a → Ends (.members none) (a ++ chr '}' :: r) r
  | last {t name v u r} : Member t name v → Ends .value v u → Closes (chr '}') u r →
      Ends (.members none) t r
  | found {t name v} : Member t name v → Ends (.members (some name)) t v
  | next {wanted t name v a b r} : Member t name v → some name ≠ wanted →
      Ends .value v (a ++ chr ',' :: b) → chr ',' ∉ a → chr '}' ∈ (a ++ chr ',' :: b).tail →
      Ends (.members wanted) (chr ',' :: b) r → Ends (.members wanted) t r

/-- A value that is visited is cut off, is the end of the text although it is inside of another
one, or is an array with a bracket behind the first comma that follows its first element. -/
inductive Defect : Part → List UInt8 → Prop
  | cut {c t n} : literalLength c = some n → t.length + 1 < n → Defect .value (c :: t)
  | obj {t} : Defect (.members none) t → Defect .value (chr '{' :: t)
  | elem {t} : chr ']' ∈ t → t.head? ≠ some (chr ']') → Defect .value (t.dropWhile isspace) →
      Defect .value (chr '[' :: t)
  | elemEnds {t} : chr ']' ∈ t → t.head? ≠ some (chr ']') → Ends .value (t.dropWhile isspace) [] →
      Defect .value (chr '[' :: t)
  | comma {t a b} : t.head? ≠ some (chr ']') →
      Ends .value (t.dropWhile isspace) (a ++ chr ',' :: b) → chr ',' ∉ a → chr ']' ∈ b →
      Defect .value (chr '[' :: t)
  | member {wanted t name v} : Member t name v → some name ≠ wanted → Defect .value v →
      Defect (.members wanted) t
  | memberEnds {wanted t name v} : Member t name v → some name ≠ wanted → Ends .value v [] →
      Defect (.members wanted) t
  | next {wanted t name v a b} : Member t name v → some name ≠ wanted →
      Ends .value v (a ++ chr ',' :: b) → chr ',' ∉ a → chr '}' ∈ (a ++ chr ',' :: b).tail →
      Defect (.members wanted) (chr ',' :: b) → Defect (.members wanted) t

variable {s t u v a b r name : List UInt8} {wanted : Option (List UInt8)} {k : Part} {c : UInt8}
  {n m p : ℕ} {o : Option ℕ}

theorem Member.suffix (h : Member t name v) : v <:+ t ∧ v.length < t.length := by
  obtain ⟨-, a, b, u, rfl, -, -, -, -, rfl⟩ := h
  have hdrop := List.dropWhile_suffix isspace (l := u)
  refine ⟨hdrop.trans ⟨a ++ chr '"' :: (name ++ chr '"' :: (b ++ [chr ':'])), by simp⟩, ?_⟩
  have := hdrop.length_le
  simp only [List.length_append, List.length_cons]
  omega

theorem Closes.cons_suffix (h : Closes c u r) : c :: r <:+ u := by
  obtain ⟨-, d, a, rfl, -⟩ := h
  exact List.suffix_append (d :: a) (c :: r)

theorem Closes.suffix (h : Closes c u r) : r <:+ u := (List.suffix_cons c r).trans h.cons_suffix

theorem Ends.suffix (h : Ends k t r) : r <:+ t := by
  induction h with
  | @literal c a r _ => exact ⟨c :: a, rfl⟩
  | @str b r _ => exact ⟨chr '"' :: (b ++ [chr '"']), by simp⟩
  | num _ h => exact numEnd_suffix h
  | obj _ ih => exact ih.trans (List.suffix_cons _ _)
  | @emptyArr r => exact ⟨[chr '[', chr ']'], rfl⟩
  | arr _ _ hclose ih =>
    exact hclose.suffix.trans (ih.trans ((List.dropWhile_suffix _).trans (List.suffix_cons _ _)))
  | @noMember a r _ _ => exact ⟨a ++ [chr '}'], by simp⟩
  | last hm _ hclose ih => exact hclose.suffix.trans (ih.trans hm.suffix.1)
  | found hm => exact hm.suffix.1
  | next hm _ _ _ _ _ ih ih' =>
    exact ih'.trans ((List.suffix_append _ _).trans (ih.trans hm.suffix.1))

/-- What the loops do behind a value, with `last` for their result when no comma follows. -/
def seekNext (s : List UInt8) (last : ℕ → Option ℕ) (close : UInt8) (loop : ℕ → Scan (Option ℕ))
    (o : Option ℕ) : Scan (Option ℕ) := do
  let some e := o | return none
  let some q ← strchr s (e + 1) close | return none
  let some p ← strchr s e (chr ',') | return last q
  loop p

variable {last : ℕ → Option ℕ} {close : UInt8} {loop : ℕ → Scan (Option ℕ)}

theorem seekNext_outside (h : s.length ≤ p + 1) :
    seekNext s last close loop (some p) = .error .fault := by
  rw [seekNext]
  simp only [strchr_outside h]
  rfl

theorem seekNext_closes (h : Left s u) (hclose : Closes close u r) :
    seekNext s last close loop (some (place s u)) = .ok (last (place s (close :: r))) := by
  obtain ⟨hcomma, c, a, rfl, ha⟩ := hclose
  rw [seekNext]
  simp only [place_cons h, strchr_place h.cons ha, strchr_absent h hcomma (by decide), ok_bind]
  rfl

theorem seekNext_next (h : Left s (a ++ chr ',' :: b)) (ha : chr ',' ∉ a)
    (hclose : close ∈ (a ++ chr ',' :: b).tail) :
    seekNext s last close loop (some (place s (a ++ chr ',' :: b))) =
      loop (place s (chr ',' :: b)) := by
  have hcomma := strchr_place h ha
  obtain ⟨c, u, hu⟩ := List.exists_cons_of_ne_nil (show a ++ chr ',' :: b ≠ [] by simp)
  rw [hu] at h hclose hcomma ⊢
  obtain ⟨u, r, rfl, hr⟩ := List.eq_append_cons_of_mem hclose
  rw [seekNext]
  simp only [place_cons h, strchr_place h.cons hr, hcomma, ok_bind]

theorem seekNext_absent (h : Left s (c :: u)) (hclose : close ∉ u) (hne : close ≠ 0) :
    seekNext s last close loop (some (place s (c :: u))) = .ok none := by
  rw [seekNext]
  simp only [place_cons h, strchr_absent h.cons hclose hne]
  rfl

/-- There is nothing behind the value, or the end of the list, or a comma, or no bracket. -/
theorem next_cases (close : UInt8) (u : List UInt8) : u = [] ∨ (∃ r, Closes close u r) ∨
    (∃ a b, u = a ++ chr ',' :: b ∧ chr ',' ∉ a ∧ close ∈ (a ++ chr ',' :: b).tail) ∨
      ∃ c v, u = c :: v ∧ close ∉ v := by
  cases u with
  | nil => exact .inl rfl
  | cons c u =>
    by_cases hclose : close ∈ u
    · by_cases hcomma : chr ',' ∈ c :: u
      · obtain ⟨a, b, hab, ha⟩ := List.eq_append_cons_of_mem hcomma
        exact .inr (.inr (.inl ⟨a, b, hab, ha, hab ▸ hclose⟩))
      · obtain ⟨a, r, rfl, ha⟩ := List.eq_append_cons_of_mem hclose
        exact .inr (.inl ⟨r, hcomma, c, a, rfl, ha⟩)
    · exact .inr (.inr (.inr ⟨c, u, rfl, hclose⟩))

/-- What the loops over members do up to a value, with `last` for their result when the object
ends. -/
def toMember (s : List UInt8) (p : ℕ) (last : ℕ → Option ℕ)
    (atValue : ℕ → ℕ → ℕ → Scan (Option ℕ)) : Scan (Option ℕ) := do
  if (← load s p) = 0 then return none
  let some rightBrace ← strchr s p (chr '}') | return none
  let some key ← strchr s p (chr '"') | return last rightBrace
  if rightBrace < key then return last rightBrace
  let some keyEnd ← findStrEnd s key | return none
  let some p ← strchr s keyEnd (chr ':') | return none
  let p ← skipWhile isspace s (p + 1)
  atValue key keyEnd p

/-- What is returned when no comma follows. -/
def lastResult : Option (List UInt8) → ℕ → Option ℕ
  | none, q => some (q + 1)
  | some _, _ => none

/-- The function that reads a part of the text: `n` is the fuel for values inside of it, and `m`
that of the loop. -/
def scan (s : List UInt8) : Part → ℕ → ℕ → ℕ → Scan (Option ℕ)
  | .value, n, _, p => findEnd s n p
  | .members none, n, m, p => objLoop s (findEnd s n) m p
  | .members (some name), _, m, p => valueLoop s name m p

theorem objLoop_eq (find : ℕ → Scan (Option ℕ)) (m p : ℕ) : objLoop s find (m + 1) p =
    toMember s p (lastResult none) fun _ _ p =>
      find p >>= seekNext s (lastResult none) (chr '}') (objLoop s find m) := rfl

theorem valueLoop_eq (m p : ℕ) : valueLoop s name (m + 1) p =
    toMember s p (lastResult (some name)) fun key keyEnd p =>
      if name.length + 2 = keyEnd - key ∧ (s.drop (key + 1)).take name.length = name then
        .ok (some p)
      else
        findEnd s m p >>= seekNext s (lastResult (some name)) (chr '}') (valueLoop s name m) := rfl

theorem load_ne_zero (h : Left s t) (ht : t ≠ []) : ∃ c, load s (place s t) = .ok c ∧ c ≠ 0 := by
  obtain ⟨c, t, rfl⟩ := List.exists_cons_of_ne_nil ht
  exact ⟨c, load_cons h, fun hc => h.zero_not_mem (hc ▸ .head _)⟩

/-- The members end at a brace in front of which there is no quote. -/
theorem toMember_noMember (h : Left s (a ++ chr '}' :: r)) (hbrace : chr '}' ∉ a)
    (hquote : chr '"' ∉ a) (last : ℕ → Option ℕ) (atValue : ℕ → ℕ → ℕ → Scan (Option ℕ)) :
    toMember s (place s (a ++ chr '}' :: r)) last atValue =
      .ok (last (place s (chr '}' :: r))) := by
  obtain ⟨c, hload, hc⟩ := load_ne_zero h (by simp)
  have hne : chr '"' ≠ chr '}' := by decide
  rw [toMember, hload, ok_bind, if_neg hc]
  simp only [strchr_place h hbrace, ok_bind]
  by_cases hmem : chr '"' ∈ r
  · obtain ⟨b, u, rfl, hb⟩ := List.eq_append_cons_of_mem hmem
    obtain ⟨l, hl⟩ : ∃ l, l = a ++ chr '}' :: b := ⟨_, rfl⟩
    have hlist : a ++ chr '}' :: (b ++ chr '"' :: u) = l ++ chr '"' :: u := by simp [hl]
    have hkey := strchr_place (c := chr '"') (a := l) (t := u) (s := s) (by rwa [← hlist])
      (by simp [hl, hquote, hb, hne])
    have hlt : place s (chr '}' :: (b ++ chr '"' :: u)) < place s (chr '"' :: u) := by
      rw [place_lt_place h.append (h.of_suffix ⟨l, hlist.symm⟩)]
      simp only [List.length_cons, List.length_append]
      omega
    rw [hlist, hkey, ok_bind]
    simp only [if_pos hlt]
    rfl
  · rw [strchr_absent h (by simp [hquote, hmem, hne]) (by decide)]
    rfl

/-- The name is that of the member if its length and its bytes are those between the quotes. -/
theorem isMatch_iff (h : Left s (chr '"' :: (name ++ chr '"' :: u))) (w : List UInt8) :
    (w.length + 2 = place s u - place s (chr '"' :: (name ++ chr '"' :: u)) ∧
      (s.drop (place s (chr '"' :: (name ++ chr '"' :: u)) + 1)).take w.length = w) ↔
      name = w := by
  have hlen := place_append (a := chr '"' :: name ++ [chr '"']) (t := u) (s := s) (by simpa using h)
  simp only [List.cons_append, List.append_assoc, List.nil_append, List.length_cons,
    List.length_append, List.length_nil] at hlen
  have hdrop : s.drop (place s (name ++ chr '"' :: u)) = name ++ chr '"' :: u ++ [0] := h.cons.at
  rw [place_cons h, hdrop, List.append_assoc]
  constructor
  · rintro ⟨hw, htake⟩
    rwa [show w.length = name.length by omega, List.take_left] at htake
  · rintro rfl
    exact ⟨by omega, List.take_left⟩

/-- The value of a member is arrived at. -/
theorem toMember_member (h : Left s t) (hm : Member t name v) : ∃ key keyEnd,
    (∀ w : List UInt8, (w.length + 2 = keyEnd - key ∧ (s.drop (key + 1)).take w.length = w) ↔
      name = w) ∧
    ∀ last atValue, toMember s (place s t) last atValue = atValue key keyEnd (place s v) := by
  obtain ⟨hbrace, a, b, u, rfl, hquote, hbrace', hname, hcolon, rfl⟩ := hm
  have hkey := h.append
  have hrest : Left s (b ++ chr ':' :: u) :=
    hkey.of_suffix ⟨chr '"' :: (name ++ [chr '"']), by simp⟩
  refine ⟨_, _, isMatch_iff hkey, fun last atValue => ?_⟩
  obtain ⟨c, hload, hc⟩ := load_ne_zero h (by simp)
  obtain ⟨l, r, hl, hbrace''⟩ := List.eq_append_cons_of_mem hbrace
  have hge : ¬ place s (chr '}' :: r) < place s (chr '"' :: (name ++ chr '"' ::
      (b ++ chr ':' :: u))) := by
    rw [place_lt_place (h.of_suffix ⟨l, hl.symm⟩) hkey]
    rcases List.append_eq_append_iff.mp hl with ⟨x, hx, hx'⟩ | ⟨x, hx, hx'⟩
    · have := congrArg List.length hx'
      simp only [List.length_append, List.length_cons] at this ⊢
      omega
    · cases x with
      | nil =>
        rw [List.nil_append] at hx'
        exact absurd (List.cons.inj hx').1 (by decide)
      | cons d x =>
        have hd : chr '}' = d := (List.cons.inj hx').1
        exact absurd (show chr '}' ∈ a by rw [hx, hd]; simp) hbrace'
  have hfound := strchr_place (hl ▸ h) hbrace''
  rw [← hl] at hfound
  have hspace := skipWhile_place (f := isspace) hrest.append.cons (by decide)
  rw [toMember, hload, ok_bind, if_neg hc]
  simp only [hfound, strchr_place h hquote, ok_bind, if_neg hge, findStrEnd_place hkey hname,
    strchr_place hrest hcolon, place_cons hrest.append, hspace]

/-- The members end, or there is a member, or neither is found. -/
theorem toMember_cases (h : Left s t) :
    (∃ a r, t = a ++ chr '}' :: r ∧ chr '}' ∉ a ∧ chr '"' ∉ a) ∨ (∃ name v, Member t name v) ∨
      ∀ last atValue, toMember s (place s t) last atValue = .ok none := by
  by_cases ht : t = []
  · subst ht
    refine .inr (.inr fun last atValue => ?_)
    rw [toMember, load_nil h]
    rfl
  obtain ⟨c, hload, hc⟩ := load_ne_zero h ht
  by_cases hbrace : chr '}' ∈ t
  · obtain ⟨a, r, hr, ha⟩ := List.eq_append_cons_of_mem hbrace
    by_cases hquote : chr '"' ∈ a
    · obtain ⟨l, x, rfl, hl⟩ := List.eq_append_cons_of_mem hquote
      obtain ⟨u, hu⟩ : ∃ u, u = x ++ chr '}' :: r := ⟨_, rfl⟩
      have htext : t = l ++ chr '"' :: u := by simp [hr, hu]
      have hkey : Left s (chr '"' :: u) := h.of_suffix ⟨l, htext.symm⟩
      have hge : ¬ place s (chr '}' :: r) < place s (chr '"' :: u) := by
        rw [place_lt_place (h.of_suffix ⟨_, hr.symm⟩) hkey, hu]
        simp only [List.length_cons, List.length_append]
        omega
      have hfound := strchr_place (hr ▸ h) ha
      have hkeyAt := strchr_place (htext ▸ h) hl
      rw [← hr] at hfound
      rw [← htext] at hkeyAt
      rcases findStrEnd_cases hkey with ⟨name, y, hname, rfl⟩ | hnone
      · have hend := findStrEnd_place hkey hname
        have hy : Left s y := hkey.of_suffix ⟨chr '"' :: (name ++ [chr '"']), by simp⟩
        by_cases hcolon : chr ':' ∈ y
        · obtain ⟨b, z, rfl, hb⟩ := List.eq_append_cons_of_mem hcolon
          have hlbrace : chr '}' ∉ l := fun hmem => ha (List.mem_append_left _ hmem)
          exact .inr (.inl ⟨name, _, hbrace, l, b, z, htext, hl, hlbrace, hname, hb, rfl⟩)
        · refine .inr (.inr fun last atValue => ?_)
          rw [toMember, hload, ok_bind, if_neg hc]
          simp only [hfound, hkeyAt, ok_bind, if_neg hge, hend,
            strchr_absent hy hcolon (by decide)]
          rfl
      · refine .inr (.inr fun last atValue => ?_)
        rw [toMember, hload, ok_bind, if_neg hc]
        simp only [hfound, hkeyAt, ok_bind, if_neg hge, hnone]
        rfl
    · exact .inl ⟨a, r, hr, ha, hquote⟩
  · refine .inr (.inr fun last atValue => ?_)
    rw [toMember, hload, ok_bind, if_neg hc, strchr_absent h hbrace (by decide)]
    rfl

theorem findEnd_dropWhile (h : Left s t) (n : ℕ) :
    findEnd s n (place s t) = findEnd s n (place s (t.dropWhile isspace)) := by
  cases n with
  | zero => rfl
  | succ n =>
    have hdrop := h.of_suffix (List.dropWhile_suffix isspace)
    rw [findEnd, findEnd, skipWhile_place h (by decide), skipWhile_place hdrop (by decide),
      List.dropWhile_idempotent]

theorem findEnd_nil (h : Left s []) (n : ℕ) : findEnd s (n + 1) (place s []) = .ok none := by
  rw [findEnd, skipWhile_stop h.at (by decide), ok_bind, load_nil h, ok_bind]
  rfl

/-- The first character decides what is read. -/
theorem findEnd_cons (h : Left s (c :: t)) (hc : isspace c = false) (n : ℕ) :
    findEnd s (n + 1) (place s (c :: t)) =
      if c = chr '{' then objLoop s (findEnd s n) n (place s t)
      else if c = chr '[' then findArrEnd s (findEnd s n) n (place s (c :: t))
      else if c = chr '"' then findStrEnd s (place s (c :: t))
      else match literalLength c with
        | some k => .ok (some (place s (c :: t) + k))
        | none => .ok ((numEnd (c :: t)).map (place s)) := by
  have h0 : c ≠ 0 := fun hc => h.zero_not_mem (hc ▸ .head _)
  have hskip : skipWhile isspace s (place s (c :: t)) = .ok (place s (c :: t)) :=
    skipWhile_stop h.at hc
  rw [findEnd, hskip, ok_bind, load_cons h, ok_bind, if_neg h0, place_cons h, findNumEnd_place h,
    literalLength]
  split_ifs <;> rfl

theorem findArrEnd_absent (h : Left s (chr '[' :: t)) (ht : chr ']' ∉ t)
    (find : ℕ → Scan (Option ℕ)) (m : ℕ) :
    findArrEnd s find m (place s (chr '[' :: t)) = .ok none := by
  rw [findArrEnd, place_cons h, strchr_absent h.cons ht (by decide)]
  rfl

theorem findArrEnd_empty (h : Left s (chr '[' :: chr ']' :: r)) (find : ℕ → Scan (Option ℕ))
    (m : ℕ) : findArrEnd s find m (place s (chr '[' :: chr ']' :: r)) =
      .ok (some (place s r)) := by
  have hbracket : strchr s (place s (chr ']' :: r)) (chr ']') =
      .ok (some (place s (chr ']' :: r))) :=
    strchr_here h.cons.at
  rw [findArrEnd, place_cons h, hbracket, ok_bind]
  simp only [if_true, place_cons h.cons]
  rfl

theorem findArrEnd_elem (h : Left s (chr '[' :: t)) (ht : chr ']' ∈ t)
    (hhead : t.head? ≠ some (chr ']')) (find : ℕ → Scan (Option ℕ)) (m : ℕ) :
    findArrEnd s find m (place s (chr '[' :: t)) = arrLoop s find m (place s t) := by
  obtain ⟨a, r, rfl, ha⟩ := List.eq_append_cons_of_mem ht
  have hne : place s (a ++ chr ']' :: r) ≠ place s (chr ']' :: r) := by
    cases a with
    | nil => exact absurd rfl hhead
    | cons d a =>
      have := place_append (a := d :: a) h.cons
      rw [List.length_cons] at this
      omega
  rw [findArrEnd, place_cons h, strchr_place h.cons ha, ok_bind]
  simp only [if_neg hne]

theorem arrLoop_eq (h : Left s t) (ht : t ≠ []) (m : ℕ) :
    arrLoop s (findEnd s n) (m + 1) (place s t) =
      findEnd s n (place s (t.dropWhile isspace)) >>=
        seekNext s (lastResult none) (chr ']') (arrLoop s (findEnd s n) m) := by
  obtain ⟨c, hload, hc⟩ := load_ne_zero h ht
  rw [arrLoop, hload, ok_bind, if_neg hc, skipWhile_place h (by decide)]
  rfl

theorem findEnd_comma (h : Left s (chr ',' :: t)) (n : ℕ) :
    findEnd s (n + 1) (place s (chr ',' :: t)) = .ok (some (place s (chr ',' :: t))) := by
  rw [findEnd_cons h (by decide), if_neg (by decide), if_neg (by decide), if_neg (by decide)]
  have hlit : literalLength (chr ',') = none := by decide
  have hnum : numEnd (chr ',' :: t) = some (chr ',' :: t) := by
    have hdigit : isdigit (chr ',') = false := by decide
    simp [numEnd, dropChar, numExp, numStop, hdigit, show chr ',' ≠ chr '-' by decide,
      show chr ',' ≠ chr '.' by decide, show tolower (chr ',') ≠ chr 'e' by decide]
  simp only [hlit, hnum]
  rfl

/-- At a comma the loop over an array does not end when there is a bracket behind it. -/
theorem arrLoop_stays (h : Left s (chr ',' :: t)) (ht : chr ']' ∈ t) (n m : ℕ) (o : Option ℕ) :
    arrLoop s (findEnd s n) m (place s (chr ',' :: t)) ≠ .ok o := by
  induction m with
  | zero => exact nofun
  | succ m ih =>
    rw [arrLoop_eq h (List.cons_ne_nil _ _), List.dropWhile_cons_of_neg (by decide)]
    cases n with
    | zero => exact nofun
    | succ n =>
      have hnext := @seekNext_next _ [] _ (lastResult none) (chr ']')
        (arrLoop s (findEnd s (n + 1)) m) h (by simp) ht
      rw [List.nil_append] at hnext
      rw [findEnd_comma h, ok_bind, hnext]
      exact ih

theorem arrLoop_unclosed (h : Left s (chr ',' :: t)) (ht : chr ']' ∉ t) (n m : ℕ) :
    arrLoop s (findEnd s (n + 1)) (m + 1) (place s (chr ',' :: t)) = .ok none := by
  rw [arrLoop_eq h (List.cons_ne_nil _ _), List.dropWhile_cons_of_neg (by decide), findEnd_comma h,
    ok_bind, seekNext_absent h ht (by decide)]

theorem scan_noMember (h : Left s (a ++ chr '}' :: r)) (hbrace : chr '}' ∉ a)
    (hquote : chr '"' ∉ a) (wanted : Option (List UInt8)) (n m : ℕ) :
    scan s (.members wanted) n (m + 1) (place s (a ++ chr '}' :: r)) =
      .ok (lastResult wanted (place s (chr '}' :: r))) := by
  cases wanted with
  | none => rw [scan, objLoop_eq, toMember_noMember h hbrace hquote]
  | some w => rw [scan, valueLoop_eq, toMember_noMember h hbrace hquote]

theorem scan_found (h : Left s t) (hm : Member t name v) (n m : ℕ) :
    scan s (.members (some name)) n (m + 1) (place s t) = .ok (some (place s v)) := by
  obtain ⟨key, keyEnd, hmatch, hmember⟩ := toMember_member h hm
  rw [scan, valueLoop_eq, hmember, if_pos ((hmatch name).mpr rfl)]

theorem scan_next (h : Left s t) (hm : Member t name v) (hne : some name ≠ wanted) (n m : ℕ) :
    ∃ n', (n' = n ∨ n' = m) ∧ scan s (.members wanted) n (m + 1) (place s t) =
      findEnd s n' (place s v) >>=
        seekNext s (lastResult wanted) (chr '}') (scan s (.members wanted) n m) := by
  obtain ⟨key, keyEnd, hmatch, hmember⟩ := toMember_member h hm
  cases wanted with
  | none =>
    refine ⟨n, .inl rfl, ?_⟩
    rw [scan, objLoop_eq, hmember]
    rfl
  | some w =>
    have hne' : ¬ name = w := fun heq => hne (congrArg some heq)
    refine ⟨m, .inr rfl, ?_⟩
    rw [scan, valueLoop_eq, hmember, if_neg fun hw => hne' ((hmatch w).mp hw)]
    rfl

theorem scan_member (h : Left s t) (hm : Member t name v) (hne : some name ≠ wanted)
    (hn : v.length < n) (hm' : v.length < m) : ∃ n', v.length ≤ n' ∧
      scan s (.members wanted) n (m + 1) (place s t) = findEnd s (n' + 1) (place s v) >>=
        seekNext s (lastResult wanted) (chr '}') (scan s (.members wanted) n m) := by
  obtain ⟨n', hn', hscan⟩ := scan_next h hm hne n m
  have hlt : v.length < n' := by rcases hn' with rfl | rfl <;> assumption
  obtain ⟨n', rfl⟩ := Nat.exists_eq_add_one_of_ne_zero (Nat.ne_zero_of_lt hlt)
  exact ⟨n', Nat.le_of_lt_succ hlt, hscan⟩

theorem literalLength_some (h : literalLength c = some n) :
    isspace c = false ∧ c ≠ chr '{' ∧ c ≠ chr '[' ∧ c ≠ chr '"' := by
  rw [literalLength] at h
  split_ifs at h with hn ht hf
  · exact hn ▸ by decide
  · exact ht ▸ by decide
  · exact hf ▸ by decide

theorem findEnd_literal (h : Left s (c :: t)) {k : ℕ} (hc : literalLength c = some k) (n : ℕ) :
    findEnd s (n + 1) (place s (c :: t)) = .ok (some (place s (c :: t) + k)) := by
  obtain ⟨hspace, hobj, harr, hstr⟩ := literalLength_some hc
  rw [findEnd_cons h hspace, if_neg hobj, if_neg harr, if_neg hstr]
  simp only [hc]

theorem findEnd_num (h : Left s (c :: t)) (hc : beginsNumber c) (n : ℕ) :
    findEnd s (n + 1) (place s (c :: t)) = .ok ((numEnd (c :: t)).map (place s)) := by
  obtain ⟨hspace, hobj, harr, hstr, hlit⟩ := hc
  rw [findEnd_cons h hspace, if_neg hobj, if_neg harr, if_neg hstr]
  simp only [hlit]

theorem findEnd_str (h : Left s (chr '"' :: t)) (n : ℕ) :
    findEnd s (n + 1) (place s (chr '"' :: t)) = findStrEnd s (place s (chr '"' :: t)) := by
  rw [findEnd_cons h (by decide), if_neg (by decide), if_neg (by decide), if_pos rfl]

theorem findEnd_obj (h : Left s (chr '{' :: t)) (n : ℕ) :
    findEnd s (n + 1) (place s (chr '{' :: t)) = scan s (.members none) n n (place s t) := by
  rw [findEnd_cons h (by decide), if_pos rfl]
  rfl

theorem findEnd_arr (h : Left s (chr '[' :: t)) (n : ℕ) :
    findEnd s (n + 1) (place s (chr '[' :: t)) =
      findArrEnd s (findEnd s n) n (place s (chr '[' :: t)) := by
  rw [findEnd_cons h (by decide), if_neg (by decide), if_pos rfl]

/-- The end is found where there is one. -/
theorem Ends.scan_eq (h : Ends k t r) (hs : Left s t) (hn : t.length ≤ n) (hm : t.length ≤ m) :
    scan s k (n + 1) (m + 1) (place s t) = .ok (some (place s r)) := by
  induction h generalizing n m with
  | @literal c a r hc =>
    have hplace := place_append (a := c :: a) (t := r) hs
    rw [List.length_cons, List.cons_append] at hplace
    rw [scan, findEnd_literal hs hc, hplace]
  | str hb => rw [scan, findEnd_str hs, findStrEnd_place hs hb]
  | num hc hnum =>
    rw [scan, findEnd_num hs hc, hnum]
    rfl
  | obj _ ih =>
    obtain ⟨n, rfl⟩ := Nat.exists_eq_add_one_of_ne_zero (Nat.ne_zero_of_lt hn)
    rw [scan, findEnd_obj hs]
    exact ih hs.cons (Nat.le_of_succ_le_succ hn) (Nat.le_of_succ_le_succ hn)
  | emptyArr => rw [scan, findEnd_arr hs, findArrEnd_empty hs]
  | @arr t u r hhead hu hclose ih =>
    obtain ⟨n, rfl⟩ := Nat.exists_eq_add_one_of_ne_zero (Nat.ne_zero_of_lt hn)
    have hdrop := List.dropWhile_suffix isspace (l := t)
    have hleft := hs.cons.of_suffix hdrop
    have hlen : (t.dropWhile isspace).length ≤ n :=
      hdrop.length_le.trans (Nat.le_of_succ_le_succ hn)
    have hbracket := hclose.cons_suffix.trans hu.suffix
    have hmem : chr ']' ∈ t := hdrop.mem (hbracket.mem (.head _))
    have helem : findEnd s (n + 1) (place s (t.dropWhile isspace)) = .ok (some (place s u)) :=
      ih hleft hlen hlen
    rw [scan, findEnd_arr hs, findArrEnd_elem hs hmem hhead,
      arrLoop_eq hs.cons (List.ne_nil_of_mem hmem), helem, ok_bind,
      seekNext_closes (hleft.of_suffix hu.suffix) hclose, lastResult,
      place_cons (hleft.of_suffix hbracket)]
  | noMember hbrace hquote =>
    rw [scan_noMember hs hbrace hquote, lastResult, place_cons hs.append]
  | @last t name v u r hmem hv hclose ih =>
    obtain ⟨hsuffix, hlt⟩ := hmem.suffix
    have hleft := hs.of_suffix hsuffix
    obtain ⟨n', hn', hscan⟩ := @scan_member _ _ _ _ none _ _ hs hmem nofun
      (Nat.lt_succ_of_lt (hlt.trans_le hn)) (hlt.trans_le hm)
    have hvalue : findEnd s (n' + 1) (place s v) = .ok (some (place s u)) := ih hleft hn' hn'
    rw [hscan, hvalue, ok_bind, seekNext_closes (hleft.of_suffix hv.suffix) hclose, lastResult,
      place_cons (hleft.of_suffix (hclose.cons_suffix.trans hv.suffix))]
  | found hmem => exact scan_found hs hmem _ _
  | @next wanted t name v a b r hmem hne hv hcomma hbrace hrest ih ih' =>
    obtain ⟨hsuffix, hlt⟩ := hmem.suffix
    have hleft := hs.of_suffix hsuffix
    have hlist := hleft.of_suffix hv.suffix
    have hlen : (chr ',' :: b).length < t.length :=
      (((List.suffix_append a _).trans hv.suffix).length_le).trans_lt hlt
    obtain ⟨m, rfl⟩ := Nat.exists_eq_add_one_of_ne_zero (Nat.ne_zero_of_lt (hlt.trans_le hm))
    obtain ⟨n', hn', hscan⟩ := scan_member hs hmem hne (Nat.lt_succ_of_lt (hlt.trans_le hn))
      (hlt.trans_le hm)
    have hvalue : findEnd s (n' + 1) (place s v) = .ok (some (place s (a ++ chr ',' :: b))) :=
      ih hleft hn' hn'
    rw [hscan, hvalue, ok_bind, seekNext_next hlist hcomma hbrace]
    exact ih' hlist.append (hlen.le.trans hn) (Nat.le_of_lt_succ (hlen.trans_le hm))

/-- A part of a text has a defect, or an end, or none is found. -/
def Settled (s : List UInt8) (k : Part) (t : List UInt8) : Prop :=
  Defect k t ∨ (∃ r, Ends k t r) ∨
    ∀ n m, t.length ≤ n → t.length ≤ m → scan s k (n + 1) (m + 1) (place s t) = .ok none

theorem not_isspace_head (t : List UInt8) :
    ∀ c ∈ (t.dropWhile isspace).head?, isspace c = false := by
  intro c hc
  have := List.head?_dropWhile_not isspace t
  rw [Option.mem_def.mp hc] at this
  exact this

theorem settled_arr (h : Left s (chr '[' :: t)) (hu : Settled s .value (t.dropWhile isspace)) :
    Settled s .value (chr '[' :: t) := by
  by_cases hmem : chr ']' ∈ t
  · by_cases hhead : t.head? = some (chr ']')
    · obtain ⟨r, rfl⟩ := List.head?_eq_some_iff.mp hhead
      exact .inr (.inl ⟨r, .emptyArr⟩)
    have hdrop := List.dropWhile_suffix isspace (l := t)
    have hleft := h.cons.of_suffix hdrop
    have hstep (n : ℕ) : scan s .value (n + 2) (n + 2) (place s (chr '[' :: t)) =
        findEnd s (n + 1) (place s (t.dropWhile isspace)) >>=
          seekNext s (lastResult none) (chr ']') (arrLoop s (findEnd s (n + 1)) n) := by
      rw [scan, findEnd_arr h, findArrEnd_elem h hmem hhead,
        arrLoop_eq h.cons (List.ne_nil_of_mem hmem)]
    have hnone (hfind : ∀ n, t.length ≤ n → scan s .value (n + 2) (n + 2)
        (place s (chr '[' :: t)) = .ok none) : Settled s .value (chr '[' :: t) := by
      refine .inr (.inr fun n m hn _ => ?_)
      obtain ⟨n, rfl⟩ := Nat.exists_eq_add_one_of_ne_zero (Nat.ne_zero_of_lt hn)
      exact hfind n (Nat.le_of_succ_le_succ hn)
    rcases hu with hdefect | ⟨u, hends⟩ | hu
    · exact .inl (.elem hmem hhead hdefect)
    · have hvalue (n : ℕ) (hn : t.length ≤ n) : findEnd s (n + 1) (place s (t.dropWhile isspace)) =
          .ok (some (place s u)) :=
        hends.scan_eq hleft (hdrop.length_le.trans hn) (hdrop.length_le.trans hn)
      have hlist := hleft.of_suffix hends.suffix
      rcases next_cases (chr ']') u with rfl | ⟨r, hclose⟩ | ⟨a, b, rfl, ha, hclose⟩ |
          ⟨c, v, rfl, hv⟩
      · exact .inl (.elemEnds hmem hhead hends)
      · exact .inr (.inl ⟨r, .arr hhead hends hclose⟩)
      · by_cases hb : chr ']' ∈ b
        · exact .inl (.comma hhead hends ha hb)
        · refine hnone fun n hn => ?_
          have hlen := ((List.suffix_append a _).trans (hends.suffix.trans hdrop)).length_le
          obtain ⟨n, rfl⟩ := Nat.exists_eq_add_one_of_ne_zero
            (Nat.ne_zero_of_lt (hlen.trans hn))
          rw [hstep, hvalue _ hn, ok_bind, seekNext_next hlist ha hclose,
            arrLoop_unclosed hlist.append hb]
      · refine hnone fun n hn => ?_
        rw [hstep, hvalue n hn, ok_bind, seekNext_absent hlist hv (by decide)]
    · refine hnone fun n hn => ?_
      have hvalue : findEnd s (n + 1) (place s (t.dropWhile isspace)) = .ok none :=
        hu n n (hdrop.length_le.trans hn) (hdrop.length_le.trans hn)
      rw [hstep, hvalue]
      rfl
  · refine .inr (.inr fun n m _ _ => ?_)
    rw [scan, findEnd_arr h, findArrEnd_absent h hmem]

theorem settled_value (h : Left s t) (hspace : ∀ c ∈ t.head?, isspace c = false)
    (ih : ∀ k u, u.length < t.length → u <:+ t → (k = .value → ∀ c ∈ u.head?, isspace c = false) →
      Settled s k u) : Settled s .value t := by
  cases t with
  | nil => exact .inr (.inr fun n m _ _ => findEnd_nil h n)
  | cons c t =>
    have hc := hspace c rfl
    by_cases hobj : c = chr '{'
    · subst hobj
      rcases ih (.members none) t (Nat.lt_succ_self _) (List.suffix_cons _ _) nofun with
        hdefect | ⟨r, hends⟩ | hnone
      · exact .inl (.obj hdefect)
      · exact .inr (.inl ⟨r, .obj hends⟩)
      · refine .inr (.inr fun n m hn _ => ?_)
        obtain ⟨n, rfl⟩ := Nat.exists_eq_add_one_of_ne_zero (Nat.ne_zero_of_lt hn)
        rw [scan, findEnd_obj h]
        exact hnone n n (Nat.le_of_succ_le_succ hn) (Nat.le_of_succ_le_succ hn)
    by_cases harr : c = chr '['
    · subst harr
      have hdrop := List.dropWhile_suffix isspace (l := t)
      exact settled_arr h (ih .value _ (Nat.lt_succ_of_le hdrop.length_le)
        (hdrop.trans (List.suffix_cons _ _)) fun _ => not_isspace_head t)
    by_cases hstr : c = chr '"'
    · subst hstr
      rcases findStrEnd_cases h with ⟨b, r, hb, rfl⟩ | hnone
      · exact .inr (.inl ⟨r, .str hb⟩)
      · exact .inr (.inr fun n m _ _ => by rw [scan, findEnd_str h, hnone])
    cases hlit : literalLength c with
    | some k =>
      by_cases hlt : t.length + 1 < k
      · exact .inl (.cut hlit hlt)
      · have hk : 0 < k := by
          rw [literalLength] at hlit
          split_ifs at hlit <;> cases hlit <;> decide
        have htake : (t.take (k - 1)).length + 1 = k := by
          rw [List.length_take]
          omega
        refine .inr (.inl ⟨t.drop (k - 1), ?_⟩)
        have := Ends.literal (c := c) (a := t.take (k - 1)) (r := t.drop (k - 1))
          (by rw [htake, hlit])
        rwa [List.take_append_drop] at this
    | none =>
      have hnum : beginsNumber c := ⟨hc, hobj, harr, hstr, hlit⟩
      cases hend : numEnd (c :: t) with
      | some r => exact .inr (.inl ⟨r, .num hnum hend⟩)
      | none =>
        refine .inr (.inr fun n m _ _ => ?_)
        rw [scan, findEnd_num h hnum, hend]
        rfl

theorem settled_members (h : Left s t)
    (ih : ∀ k u, u.length < t.length → u <:+ t → (k = .value → ∀ c ∈ u.head?, isspace c = false) →
      Settled s k u) : Settled s (.members wanted) t := by
  rcases toMember_cases h with ⟨a, r, rfl, hbrace, hquote⟩ | ⟨name, v, hm⟩ | hnone
  · cases wanted with
    | none => exact .inr (.inl ⟨r, .noMember hbrace hquote⟩)
    | some w => exact .inr (.inr fun n m _ _ => scan_noMember h hbrace hquote (some w) _ _)
  · by_cases hne : some name ≠ wanted
    · obtain ⟨hsuffix, hlt⟩ := hm.suffix
      have hleft := h.of_suffix hsuffix
      have hhead : ∀ c ∈ v.head?, isspace c = false := by
        obtain ⟨-, a, b, u, -, -, -, -, -, rfl⟩ := hm
        exact not_isspace_head u
      have hnone (hfind : ∀ n' n m, v.length ≤ n' → t.length ≤ n → v.length < m →
          findEnd s (n' + 1) (place s v) >>= seekNext s (lastResult wanted) (chr '}')
            (scan s (.members wanted) (n + 1) m) = .ok none) : Settled s (.members wanted) t := by
        refine .inr (.inr fun n m hn hm' => ?_)
        obtain ⟨n', hn', hscan⟩ := scan_member h hm hne (Nat.lt_succ_of_lt (hlt.trans_le hn))
          (hlt.trans_le hm')
        rw [hscan]
        exact hfind n' n m hn' hn (hlt.trans_le hm')
      rcases ih .value v hlt hsuffix fun _ => hhead with hdefect | ⟨u, hends⟩ | hvalue
      · exact .inl (.member hm hne hdefect)
      · have hvalue (n : ℕ) (hn : v.length ≤ n) : findEnd s (n + 1) (place s v) =
            .ok (some (place s u)) := hends.scan_eq hleft hn hn
        have hlist := hleft.of_suffix hends.suffix
        rcases next_cases (chr '}') u with rfl | ⟨r, hclose⟩ | ⟨a, b, rfl, ha, hclose⟩ |
            ⟨c, u, rfl, hu⟩
        · exact .inl (.memberEnds hm hne hends)
        · cases wanted with
          | none => exact .inr (.inl ⟨r, .last hm hends hclose⟩)
          | some w =>
            refine hnone fun n' n m hn' _ _ => ?_
            rw [hvalue n' hn', ok_bind, seekNext_closes hlist hclose]
            rfl
        · have hrest := (List.suffix_append a (chr ',' :: b)).trans hends.suffix
          have hlen := hrest.length_le.trans_lt hlt
          rcases ih (.members wanted) _ hlen (hrest.trans hsuffix) nofun with
            hdefect | ⟨r, hends'⟩ | hmore
          · exact .inl (.next hm hne hends ha hclose hdefect)
          · exact .inr (.inl ⟨r, .next hm hne hends ha hclose hends'⟩)
          · refine hnone fun n' n m hn' hn hm' => ?_
            obtain ⟨m, rfl⟩ := Nat.exists_eq_add_one_of_ne_zero (Nat.ne_zero_of_lt hm')
            rw [hvalue n' hn', ok_bind, seekNext_next hlist ha hclose]
            exact hmore n m (hlen.le.trans hn)
              (hrest.length_le.trans (Nat.le_of_lt_succ hm'))
        · refine hnone fun n' n m hn' _ _ => ?_
          rw [hvalue n' hn', ok_bind, seekNext_absent hlist hu (by decide)]
      · refine hnone fun n' n m hn' _ _ => ?_
        have hvalue' : findEnd s (n' + 1) (place s v) = .ok none := hvalue n' n' hn' hn'
        rw [hvalue']
        rfl
    · obtain rfl := not_not.mp hne
      exact .inr (.inl ⟨v, .found hm⟩)
  · refine .inr (.inr fun n m _ _ => ?_)
    cases wanted with
    | none => rw [scan, objLoop_eq, hnone]
    | some w => rw [scan, valueLoop_eq, hnone]

/-- The induction is on the length of what is left. -/
theorem settled (h : Left s t) (hk : k = .value → ∀ c ∈ t.head?, isspace c = false) :
    Settled s k t := by
  induction hn : t.length using Nat.strongRecOn generalizing t k with
  | _ n ih =>
  subst hn
  have hshorter : ∀ k u, u.length < t.length → u <:+ t →
      (k = .value → ∀ c ∈ u.head?, isspace c = false) → Settled s k u :=
    fun k u hlt hsuffix hhead => ih _ hlt (h.of_suffix hsuffix) hhead rfl
  cases k with
  | value => exact settled_value h (hk rfl) hshorter
  | members wanted => exact settled_members h hshorter

theorem exists_of_bind_ok {α β : Type} {x : Scan α} {f : α → Scan β} {y : β}
    (h : x >>= f = .ok y) : ∃ a, x = .ok a ∧ f a = .ok y := by
  cases x with
  | error e => cases h
  | ok a => exact ⟨a, rfl, h⟩

/-- The end of a value does not depend on the fuel. -/
theorem Ends.eq_of_findEnd (h : Ends .value t r) (hs : Left s t)
    (ho : findEnd s n (place s t) = .ok o) : o = some (place s r) :=
  FindsEnd.unique ⟨n, ho⟩ ⟨t.length + 1, h.scan_eq hs (Nat.le_refl _) (Nat.le_refl _)⟩

/-- Behind a value that reaches out of the block nothing is found. -/
theorem seekNext_ne_ok (ho : ∃ q ∈ o, s.length ≤ q + 1) {o' : Option ℕ} :
    seekNext s last close loop o ≠ .ok o' := by
  obtain ⟨q, hq, hle⟩ := ho
  rw [Option.mem_def.mp hq, seekNext_outside hle]
  exact nofun

/-- A loop over an array that returns has found an end of its first element. -/
theorem arr_returns (h : Left s (chr '[' :: t)) (hmem : chr ']' ∈ t)
    (hhead : t.head? ≠ some (chr ']')) (ho : findEnd s n (place s (chr '[' :: t)) = .ok o) :
    ∃ n' m o₁, findEnd s n' (place s (t.dropWhile isspace)) = .ok o₁ ∧
      seekNext s (lastResult none) (chr ']') (arrLoop s (findEnd s n') m) o₁ = .ok o := by
  cases n with
  | zero => cases ho
  | succ n =>
    rw [findEnd_arr h, findArrEnd_elem h hmem hhead] at ho
    cases n with
    | zero => cases ho
    | succ n =>
      rw [arrLoop_eq h.cons (List.ne_nil_of_mem hmem)] at ho
      obtain ⟨o₁, ho₁, hnext⟩ := exists_of_bind_ok ho
      exact ⟨_, _, o₁, ho₁, hnext⟩

/-- A loop over members that returns has found an end of the value of the first. -/
theorem member_returns (h : Left s t) (hm : Member t name v) (hne : some name ≠ wanted)
    (ho : scan s (.members wanted) n m (place s t) = .ok o) :
    ∃ n' m' o₁, findEnd s n' (place s v) = .ok o₁ ∧
      seekNext s (lastResult wanted) (chr '}') (scan s (.members wanted) n m') o₁ = .ok o := by
  cases m with
  | zero => cases wanted <;> cases ho
  | succ m =>
    obtain ⟨n', -, hscan⟩ := scan_next h hm hne n m
    rw [hscan] at ho
    obtain ⟨o₁, ho₁, hnext⟩ := exists_of_bind_ok ho
    exact ⟨n', m, o₁, ho₁, hnext⟩

/-- Where there is a defect, only a place outside of the block is ever returned. -/
theorem Defect.outside (h : Defect k t) (hs : Left s t) (ho : scan s k n m (place s t) = .ok o) :
    ∃ q ∈ o, s.length ≤ q := by
  have hnil : Left s [] := hs.of_suffix List.nil_suffix
  induction h generalizing n m o with
  | @cut c t k hc hlt =>
    cases n with
    | zero => cases ho
    | succ n =>
      rw [scan, findEnd_literal hs hc] at ho
      obtain rfl := Except.ok.inj ho
      refine ⟨_, rfl, ?_⟩
      have := hs.length_lt
      rw [List.length_cons] at this
      rw [place, List.length_cons]
      omega
  | obj _ ih =>
    cases n with
    | zero => cases ho
    | succ n =>
      rw [scan, findEnd_obj hs] at ho
      exact ih hs.cons ho
  | elem hmem hhead _ ih =>
    obtain ⟨n', m', o₁, ho₁, hnext⟩ := arr_returns hs hmem hhead ho
    obtain ⟨q, hq, hle⟩ := ih (m := 0) (hs.cons.of_suffix (List.dropWhile_suffix _)) ho₁
    exact absurd hnext (seekNext_ne_ok ⟨q, hq, Nat.le_succ_of_le hle⟩)
  | elemEnds hmem hhead hends =>
    obtain ⟨n', m', o₁, ho₁, hnext⟩ := arr_returns hs hmem hhead ho
    have hq := hends.eq_of_findEnd (hs.cons.of_suffix (List.dropWhile_suffix _)) ho₁
    exact absurd hnext (seekNext_ne_ok ⟨_, hq, (place_nil hnil).ge⟩)
  | @comma t a b hhead hends ha hb =>
    have hdrop := List.dropWhile_suffix isspace (l := t)
    have hleft := hs.cons.of_suffix hdrop
    have hmem : chr ']' ∈ t := hdrop.mem (hends.suffix.mem (by simp [hb]))
    have hclose : chr ']' ∈ (a ++ chr ',' :: b).tail := by
      cases a with
      | nil => exact hb
      | cons d a => simp [hb]
    obtain ⟨n', m', o₁, ho₁, hnext⟩ := arr_returns hs hmem hhead ho
    rw [hends.eq_of_findEnd hleft ho₁, seekNext_next (hleft.of_suffix hends.suffix) ha hclose]
      at hnext
    exact absurd hnext (arrLoop_stays (hleft.of_suffix hends.suffix).append hb _ _ _)
  | member hm hne _ ih =>
    obtain ⟨n', m', o₁, ho₁, hnext⟩ := member_returns hs hm hne ho
    obtain ⟨q, hq, hle⟩ := ih (m := 0) (hs.of_suffix hm.suffix.1) ho₁
    exact absurd hnext (seekNext_ne_ok ⟨q, hq, Nat.le_succ_of_le hle⟩)
  | memberEnds hm hne hends =>
    obtain ⟨n', m', o₁, ho₁, hnext⟩ := member_returns hs hm hne ho
    have hq := hends.eq_of_findEnd (hs.of_suffix hm.suffix.1) ho₁
    exact absurd hnext (seekNext_ne_ok ⟨_, hq, (place_nil hnil).ge⟩)
  | next hm hne hends ha hb _ ih =>
    obtain ⟨n', m', o₁, ho₁, hnext⟩ := member_returns hs hm hne ho
    have hleft := hs.of_suffix hm.suffix.1
    have hlist := hleft.of_suffix hends.suffix
    rw [hends.eq_of_findEnd hleft ho₁, seekNext_next hlist ha hb] at hnext
    exact ih hlist.append hnext

/-- `uo_json_find_end` reads no byte outside of the text and its NUL, ends, and returns `NULL` or a
position in it. -/
def EndInside (text : List UInt8) : Prop :=
  ∃ o, FindsEnd (text ++ [0]) 0 o ∧ ∀ q ∈ o, q ≤ text.length

/-- The same for `uo_json_find_value`. -/
def ValueInside (text name : List UInt8) : Prop :=
  ∃ o, FindsValue (text ++ [0]) name 0 o ∧ ∀ q ∈ o, q ≤ text.length

variable {text : List UInt8}

theorem place_le_length (h : Left (text ++ [0]) r) : place (text ++ [0]) r ≤ text.length := by
  have := place_lt h
  rw [List.length_append] at this
  exact Nat.le_of_lt_succ this

/-- A part of the text returns inside of it if and only if it has no defect. -/
theorem scan_inside_iff (h : Left (text ++ [0]) t)
    (hk : k = .value → ∀ c ∈ t.head?, isspace c = false) :
    (∃ n m o, scan (text ++ [0]) k n m (place (text ++ [0]) t) = .ok o ∧
      ∀ q ∈ o, q ≤ text.length) ↔ ¬ Defect k t := by
  constructor
  · rintro ⟨n, m, o, ho, hinside⟩ hdefect
    obtain ⟨q, hq, hle⟩ := hdefect.outside h ho
    have := hinside q hq
    rw [List.length_append] at hle
    exact absurd (hle.trans this) (Nat.not_succ_le_self _)
  · intro hdefect
    rcases (settled h hk).resolve_left hdefect with ⟨r, hends⟩ | hnone
    · refine ⟨_, _, _, hends.scan_eq h (Nat.le_refl _) (Nat.le_refl _), fun q hq => ?_⟩
      rw [← Option.some.inj (Option.mem_def.mp hq)]
      exact place_le_length (h.of_suffix hends.suffix)
    · exact ⟨_, _, none, hnone _ _ (Nat.le_refl _) (Nat.le_refl _), nofun⟩

theorem endInside_iff (h : 0 ∉ text) :
    EndInside text ↔ ¬ Defect .value (text.dropWhile isspace) := by
  have hleft := (left_text h).of_suffix (List.dropWhile_suffix isspace)
  have hstart (n : ℕ) : findEnd (text ++ [0]) n 0 =
      findEnd (text ++ [0]) n (place (text ++ [0]) (text.dropWhile isspace)) := by
    rw [← findEnd_dropWhile (left_text h), place_text]
  rw [← scan_inside_iff hleft fun _ => not_isspace_head text]
  constructor
  · rintro ⟨o, ⟨n, ho⟩, hinside⟩
    exact ⟨n, 0, o, (hstart n).symm.trans ho, hinside⟩
  · rintro ⟨n, m, o, ho, hinside⟩
    exact ⟨o, ⟨n, (hstart n).trans ho⟩, hinside⟩

/-- What is visited on the way to a member is visited on the way through all of them. -/
theorem Defect.all (h : Defect (.members wanted) t) : Defect (.members none) t := by
  generalize hk : Part.members wanted = k at h
  induction h with
  | member hm hne hdefect => exact .member hm nofun hdefect
  | memberEnds hm hne hends => exact .memberEnds hm nofun hends
  | next hm hne hends ha hb _ ih => exact .next hm nofun hends ha hb (ih hk)
  | _ => cases hk

theorem Member.of_cons (h : Member (chr '{' :: t) name v) : Member t name v := by
  obtain ⟨hbrace, a, b, u, ha, hquote, hbrace', hname, hcolon, hv⟩ := h
  cases a with
  | nil => exact absurd (List.cons.inj ha).1 (by decide)
  | cons d a =>
    have hmem : chr '}' ∈ t := (List.mem_cons.mp hbrace).resolve_left (by decide)
    exact ⟨hmem, a, b, u, (List.cons.inj ha).2, fun h => hquote (.tail _ h),
      fun h => hbrace' (.tail _ h), hname, hcolon, hv⟩

/-- `uo_json_find_value` begins at the opening brace, `uo_json_find_end` behind it. -/
theorem Defect.of_members (h : Defect (.members wanted) (chr '{' :: t)) :
    Defect .value (chr '{' :: t) := by
  refine .obj ?_
  cases h.all with
  | member hm hne hdefect => exact .member hm.of_cons hne hdefect
  | memberEnds hm hne hends => exact .memberEnds hm.of_cons hne hends
  | next hm hne hends ha hb hdefect => exact .next hm.of_cons hne hends ha hb hdefect

theorem valueInside_of (h : 0 ∉ text) (hdefect : ¬ Defect .value (text.dropWhile isspace))
    (name : List UInt8) : ValueInside text name := by
  have hskip := skipWhile_place (f := isspace) (left_text h) (by decide)
  rw [place_text] at hskip
  have hleft := (left_text h).of_suffix (List.dropWhile_suffix isspace)
  have hnone (c : UInt8) (hc : c ≠ chr '{') (hload : load (text ++ [0])
      (place (text ++ [0]) (text.dropWhile isspace)) = .ok c) : ValueInside text name := by
    refine ⟨none, ⟨0, ?_⟩, fun q hq => ?_⟩
    · rw [findValue, hskip, ok_bind, hload, ok_bind, if_pos hc]
      rfl
    · cases hq
  cases ht : text.dropWhile isspace with
  | nil =>
    rw [ht] at hleft hnone
    exact hnone 0 (by decide) (load_nil hleft)
  | cons c t =>
    rw [ht] at hleft hnone hdefect hskip
    by_cases hc : c = chr '{'
    · subst hc
      obtain ⟨n, m, o, ho, hinside⟩ := (scan_inside_iff (k := .members (some name)) hleft
        fun hk => by cases hk).mpr fun hmembers => hdefect hmembers.of_members
      refine ⟨o, ⟨m, ?_⟩, hinside⟩
      rw [findValue, hskip, ok_bind, load_cons hleft, ok_bind, if_neg (not_not.mpr rfl)]
      exact ho
    · exact hnone c hc (load_cons hleft)

/-- A terminated text and a name: both functions read inside of the text, end, and return `NULL` or
a position in it, if and only if no value that is visited is cut off, is the end of the text inside
of another one, or is an array with a bracket behind the comma after its first element. -/
theorem bothInside_iff (h : 0 ∉ text) (name : List UInt8) :
    EndInside text ∧ ValueInside text name ↔ ¬ Defect .value (text.dropWhile isspace) :=
  ⟨fun hinside => (endInside_iff h).mp hinside.1,
    fun hdefect => ⟨(endInside_iff h).mpr hdefect, valueInside_of h hdefect name⟩⟩

/-- The text `{"a":[1 ] }`, with the member `a`. -/
theorem bothInside_iff_array : ¬ Defect .value
    ((['{', '"', 'a', '"', ':', '[', '1', ' ', ']', ' ', '}'].map chr).dropWhile isspace) :=
  (bothInside_iff (by decide) [chr 'a']).mp
    ⟨⟨some 11, ⟨6, by decide⟩, by decide⟩, ⟨some 5, ⟨6, by decide⟩, by decide⟩⟩

/-- The literal `n` ends behind the text, from behind `{"}":1` a brace is searched, and the loop
over `[1,2]` does not end. -/
theorem not_inside : ¬ EndInside (['n'].map chr) ∧
    ¬ EndInside (['{', '"', '}', '"', ':', '1'].map chr) ∧
    ¬ EndInside (['[', '1', ',', '2', ']'].map chr) := by
  have hnum {r : List UInt8} (h : numEnd (chr '1' :: r) = some r) :
      Ends .value (chr '1' :: r) r :=
    .num ⟨by decide, by decide, by decide, by decide, by decide⟩ h
  have hmember : Member (['"', '}', '"', ':', '1'].map chr) [chr '}'] [chr '1'] :=
    ⟨by decide, [], [], [chr '1'], rfl, by decide, by decide,
      .plain (by decide) (by decide) (by decide) .nil, by decide, rfl⟩
  refine ⟨fun h => ?_, fun h => ?_, fun h => ?_⟩
  · exact (endInside_iff (by decide)).mp h (.cut rfl (by decide))
  · exact (endInside_iff (by decide)).mp h (.obj (.memberEnds hmember nofun (hnum rfl)))
  · exact (endInside_iff (by decide)).mp h
      (.comma (a := []) (by decide) (hnum rfl) (by decide) (by decide))

end Libuo.JsonScanSafety
