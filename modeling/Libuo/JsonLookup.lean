import Libuo.JsonMembers
import Libuo.JsonValueEnds

/-!
# Names in objects

The lookup against the grammar, in objects with any white space and any values, also inside of other
objects. The values in front of the one that is looked for are passed by the scanner, so that it has
to handle them.
-/

namespace Libuo.JsonLookup
open CStrings Json JsonGrammar JsonStrings JsonScanner JsonMembers JsonValueEnds

/-- The value of the first member with a name, as it is written between the quotes, and its place in
the text of the members. -/
def getMember (name : List UInt8) : Members → Option (Value × ℕ)
  | .last before key colonBefore colonAfter v _ =>
    if key.body = name then some (v, (memberStart before key colonBefore colonAfter).length)
    else none
  | .more before key colonBefore colonAfter v after ms =>
    let start := memberStart before key colonBefore colonAfter
    if key.body = name then some (v, start.length)
    else (getMember name ms).map fun m =>
      (m.1, start.length + v.text.length + after.1.length + 1 + m.2)

/-- The scanner can handle a value in front of a comma: not an array or an object that has anything
in it. -/
def Simple : Value → Prop
  | .num num => isSigned num
  | .emptyArr w => w.1 = []
  | .arr _ | .obj _ => False
  | _ => True

/-- The values in front of the member can be handled, or all values when there is no such member. A
comma behind the object is taken for one that separates members. -/
def Passes (name : List UInt8) : Members → List UInt8 → Prop
  | .last _ key _ _ v after, t =>
    key.body = name ∨ Handled v (after.1 ++ chr '}' :: t) ∧ chr ',' ∉ t
  | .more _ key _ _ v _ ms, t => key.body = name ∨ Simple v ∧ Passes name ms t

/-- There is a member with the name, and the values in front of it can be handled. -/
def Reaches (name : List UInt8) : Members → Prop
  | .last _ key _ _ _ _ => key.body = name
  | .more _ key _ _ v _ ms => key.body = name ∨ Simple v ∧ Reaches name ms

variable {s l r t sep name : List UInt8} {p n e : ℕ} {c : UInt8}
  {before colonBefore colonAfter after : Ws} {key : Str} {ms : Members} {v : Value}

theorem handled_of_simple (hv : Simple v) (w : Ws) (l : List UInt8) :
    Handled v (w.1 ++ chr ',' :: l) := by
  cases v with
  | num num =>
    refine ⟨hv, fun c hc => ?_⟩
    cases hw : w.1 with
    | nil =>
      rw [hw] at hc
      obtain rfl := Option.some.inj hc
      decide
    | cons d w' =>
      rw [hw] at hc
      obtain rfl := Option.some.inj hc
      have hspace := w.isspace d (hw ▸ List.mem_cons_self)
      simp [endsNumber, hspace]
  | emptyArr w' => exact hv
  | arr es | obj ms => exact hv.elim
  | null | bool b | str u | emptyObj w' => trivial

theorem Reaches.passes : {ms : Members} → Reaches name ms → (t : List UInt8) → Passes name ms t
  | .last _ _ _ _ _ _, h, _ => .inl h
  | .more _ _ _ _ _ _ _, h, t => h.imp_right fun h => ⟨h.1, h.2.passes t⟩

theorem Reaches.exists : {ms : Members} → Reaches name ms → ∃ m, getMember name ms = some m
  | .last _ _ _ _ _ _, h => ⟨_, if_pos h⟩
  | .more _ key _ _ _ _ ms, h => by
    by_cases hkey : key.body = name
    · exact ⟨_, if_pos hkey⟩
    · obtain ⟨m, hm⟩ := (h.resolve_left hkey).2.exists
      rw [getMember, if_neg hkey, hm]
      exact ⟨_, rfl⟩

/-- What both loops find at a member that begins at `p`: the end of the object lies behind the name,
and the value is at `q`. -/
structure MemberAt (s : List UInt8) (p : ℕ) (key : Str) (q : ℕ) : Prop where
  load : ∃ d, load s p = .ok d ∧ d ≠ 0
  name : ∃ b k, strchr s p (chr '}') = .ok (some b) ∧ strchr s p (chr '"') = .ok (some k) ∧
    ¬ b < k ∧ findStrEnd s k = .ok (some (k + key.body.length + 2)) ∧
    (∃ l, s.drop (k + 1) = key.body ++ l) ∧
    ∃ colon, strchr s (k + key.body.length + 2) (chr ':') = .ok (some colon) ∧
      skipWhile isspace s (colon + 1) = .ok q

theorem memberAt (hsep : sep = [] ∨ sep = [chr '{'] ∨ sep = [chr ','])
    (h : At s p (sep ++ (memberStart before key colonBefore colonAfter ++ (v.text ++ (l ++ r)))))
    (hmem : chr '}' ∈ l) (h0 : 0 ∉ l) :
    MemberAt s p key (p + sep.length + (memberStart before key colonBefore colonAfter).length) := by
  obtain ⟨c, l', hv, hc, -⟩ := v.exists_cons
  have hv0 : 0 ∉ c :: l' := hv ▸ v.zero_not_mem
  rw [hv] at h
  obtain ⟨start, hstart⟩ : ∃ start, start = sep ++ before.1 := ⟨_, rfl⟩
  have hws (d : UInt8) (hd : isWs d = false) (hne : d ≠ chr '{' ∧ d ≠ chr ',') : d ∉ start := by
    rcases hsep with rfl | rfl | rfl <;> simp [hstart, before.not_mem hd, hne]
  have hstart0 : 0 ∉ start := hws 0 (by decide) (by decide)
  have hnext : At s p (start ++ (chr '"' :: key.body ++ chr '"' :: (colonBefore.1 ++
      chr ':' :: (colonAfter.1 ++ c :: (l' ++ (l ++ r)))))) := by
    simpa [memberStart, hstart] using h
  have hkey := hnext.append
  have hcolon : At s (p + start.length + key.body.length + 2) (colonBefore.1 ++
      chr ':' :: (colonAfter.1 ++ c :: (l' ++ (l ++ r)))) := by
    have := hkey.append.cons
    rwa [List.length_cons] at this
  have hpos : p + start.length + key.body.length + 2 + colonBefore.1.length + 1 +
      colonAfter.1.length =
        p + sep.length + (memberStart before key colonBefore colonAfter).length := by
    simp [memberStart, hstart]
    omega
  obtain ⟨d, l₁, hd⟩ := List.exists_cons_of_ne_nil (show start ++ [chr '"'] ≠ [] by simp)
  have hload : At s p (d :: (l₁ ++ (key.body ++ chr '"' :: (colonBefore.1 ++
      chr ':' :: (colonAfter.1 ++ c :: (l' ++ (l ++ r))))))) := by
    rw [← List.cons_append, ← hd]
    simpa using hnext
  have hd0 : d ≠ 0 := by
    rintro rfl
    have hzero : 0 ∈ start ++ [chr '"'] := hd ▸ List.mem_cons_self
    simp [hstart0, chr] at hzero
  obtain ⟨b, hb, hle, -⟩ := strchr_mem (r := r) (l := chr '"' :: key.body ++ chr '"' ::
    (colonBefore.1 ++ chr ':' :: (colonAfter.1 ++ c :: (l' ++ l)))) (c := chr '}')
    (by simpa using hkey) (by simp [hmem])
    (by simp [key.zero_not_mem, chr, h0] at hv0 ⊢; exact hv0)
  have hbrace : chr '}' ∉ start := hws _ (by decide) (by decide)
  refine ⟨⟨d, load_at hload, hd0⟩, b, p + start.length,
    (strchr_append hnext hbrace hstart0).trans hb,
    strchr_at hnext (hws _ (by decide) (by decide)) hstart0, Nat.not_lt.mpr hle,
    findStrEnd_at (strBody_body key) hkey, ⟨_, hkey.cons⟩, _,
    strchr_at hcolon (colonBefore.not_mem (by decide)) colonBefore.zero_not_mem, ?_⟩
  rw [← hpos]
  exact skipWhile_at hcolon.append.cons colonAfter.isspace hc

/-- The loop at a member: its name is compared, and the position is that of its value. -/
theorem MemberAt.valueLoop {q : ℕ} (h : MemberAt s p key q) (name : List UInt8) (n : ℕ) :
    valueLoop s name (n + 1) p =
      if key.body = name then .ok (some q) else valueRest s name n q := by
  obtain ⟨⟨d, hload, hd⟩, b, k, hb, hquote, hle, hkeyEnd, ⟨l, hdrop⟩, colon, hcolon, hskip⟩ := h
  -- the lengths and the bytes between the quotes decide the match
  have hmatch : (name.length + 2 = k + key.body.length + 2 - k ∧
      (s.drop (k + 1)).take name.length = name) ↔ key.body = name := by
    rw [hdrop]
    constructor
    · rintro ⟨hlen, htake⟩
      have hlen' : name.length = key.body.length := by omega
      rwa [hlen', List.take_left] at htake
    · rintro rfl
      exact ⟨by omega, List.take_left⟩
  rw [Json.valueLoop, hload, ok_bind, if_neg hd]
  simp only [hb, hquote, ok_bind, if_neg hle, hkeyEnd, hcolon, hskip, hmatch]
  rfl

theorem valueRest_more (name : List UInt8) {q : ℕ} (hend : FindsEnd s q (some e))
    (h : At s e (after.1 ++ chr ',' :: (l ++ r))) (hl : chr '}' ∈ l) (h0 : 0 ∉ l) :
    ∃ n₀, ∀ n ≥ n₀, valueRest s name n q = valueLoop s name n (e + after.1.length) := by
  obtain ⟨n₀, hfind⟩ := FindsEnd.exists_fuel hend
  refine ⟨n₀, fun n hn => ?_⟩
  obtain ⟨b, hb⟩ : ∃ b, strchr s (e + 1) (chr '}') = .ok (some b) := by
    obtain ⟨d, l', hd⟩ := List.exists_cons_of_ne_nil (show after.1 ++ [chr ','] ≠ [] by simp)
    have h0' : 0 ∉ l' := fun hmem => by
      have : 0 ∈ after.1 ++ [chr ','] := hd ▸ List.mem_cons_of_mem d hmem
      simp [chr] at this
    have h' : At s e (d :: ((l' ++ l) ++ r)) := by
      have : after.1 ++ chr ',' :: (l ++ r) = (after.1 ++ [chr ',']) ++ (l ++ r) := by simp
      rw [this, hd] at h
      simpa using h
    obtain ⟨b, hb, -⟩ := strchr_mem h'.cons (by simp [hl] : chr '}' ∈ l' ++ l) (by simp [h0, h0'])
    exact ⟨b, hb⟩
  have hcomma := strchr_at h (after.not_mem (by decide)) after.zero_not_mem
  rw [valueRest, hfind n hn, ok_bind]
  simp only [hb, ok_bind, hcomma]

/-- Behind the value of the last member: nothing to find, as long as there is no comma. -/
theorem valueRest_end (name : List UInt8) {q : ℕ} (hend : FindsEnd s q (some e))
    (h : At s e (after.1 ++ chr '}' :: (t ++ 0 :: r))) (ht : 0 ∉ t) (hcomma : chr ',' ∉ t) :
    ∃ n₀, ∀ n ≥ n₀, valueRest s name n q = .ok none := by
  obtain ⟨n₀, hfind⟩ := FindsEnd.exists_fuel hend
  refine ⟨n₀, fun n hn => ?_⟩
  obtain ⟨l, hl⟩ : ∃ l, l = after.1 ++ chr '}' :: t := ⟨_, rfl⟩
  have hl0 : 0 ∉ l := by simp [hl, ht, chr]
  have hlc : chr ',' ∉ l := by
    simp [hl, hcomma, after.not_mem (show isWs (chr ',') = false by decide)]
    decide
  have h' : At s e (l ++ 0 :: r) := by simpa [hl] using h
  have hnone := strchr_none h' hlc hl0 (by decide)
  obtain ⟨d, l', rfl⟩ := List.exists_cons_of_ne_nil (show l ≠ [] by simp [hl])
  rw [valueRest, hfind n hn, ok_bind]
  have hl0' : 0 ∉ l' := fun hmem => hl0 (List.mem_cons_of_mem d hmem)
  rcases strchr_total (c := chr '}') h'.cons hl0' with hbrace | ⟨b, -, hbrace, -⟩
  · simp only [(hbrace (by decide)).2, ok_bind]
    rfl
  · simp only [hbrace, ok_bind, hnone]
    rfl

theorem length_sep (hsep : sep = [chr '{'] ∨ sep = [chr ',']) : sep.length = 1 := by
  rcases hsep with rfl | rfl <;> rfl

/-- The loop over the members of an object finds the place of the one with the name. -/
theorem valueLoop_members (name : List UInt8) : (ms : Members) → {p : ℕ} → {sep : List UInt8} →
    (sep = [chr '{'] ∨ sep = [chr ',']) → At s p (sep ++ (ms.text ++ (t ++ 0 :: r))) → 0 ∉ t →
    Passes name ms t → ∃ n₀, ∀ n ≥ n₀,
      valueLoop s name n p = .ok ((getMember name ms).map fun m => p + 1 + m.2)
  | .last before key colonBefore colonAfter v after, p, sep, hsep, h, ht, hpass => by
    have h : At s p (sep ++ (memberStart before key colonBefore colonAfter ++ (v.text ++
        ((after.1 ++ [chr '}']) ++ (t ++ 0 :: r))))) := by
      simpa [Members.text] using h
    have hmember := memberAt (.inr hsep) h (by simp) (by simp [chr])
    rw [length_sep hsep] at hmember
    have hstep := hmember.valueLoop name
    by_cases hkey : key.body = name
    · refine ⟨1, fun n hn => ?_⟩
      obtain ⟨n, rfl⟩ := Nat.exists_eq_add_one_of_ne_zero (Nat.ne_zero_of_lt hn)
      rw [hstep, if_pos hkey, getMember, if_pos hkey]
      rfl
    · obtain ⟨hv, hcomma⟩ := hpass.resolve_left hkey
      have hvalue : At s (p + 1 + (memberStart before key colonBefore colonAfter).length)
          (v.text ++ ((after.1 ++ chr '}' :: t) ++ 0 :: r)) := by
        have := h.append.append
        rw [length_sep hsep] at this
        simpa using this
      have hscanned := (scanned_iff v hvalue (follow_append after (.inr (.inr rfl)) ht)).mpr hv
      obtain ⟨n₀, hrest⟩ := valueRest_end name hscanned.findsEnd
        (by simpa using hvalue.append) ht hcomma
      refine ⟨n₀ + 1, fun n hn => ?_⟩
      obtain ⟨n, rfl⟩ := Nat.exists_eq_add_one_of_ne_zero (Nat.ne_zero_of_lt hn)
      rw [hstep, if_neg hkey, hrest n (by omega), getMember, if_neg hkey]
      rfl
  | .more before key colonBefore colonAfter v after ms, p, sep, hsep, h, ht, hpass => by
    have hbrace := brace_mem_text ms
    have h : At s p (sep ++ (memberStart before key colonBefore colonAfter ++ (v.text ++
        ((after.1 ++ chr ',' :: ms.text) ++ (t ++ 0 :: r))))) := by
      simpa [Members.text] using h
    have hmember := memberAt (.inr hsep) h (by simp [hbrace]) (by simp [chr, ms.zero_not_mem])
    rw [length_sep hsep] at hmember
    have hstep := hmember.valueLoop name
    by_cases hkey : key.body = name
    · refine ⟨1, fun n hn => ?_⟩
      obtain ⟨n, rfl⟩ := Nat.exists_eq_add_one_of_ne_zero (Nat.ne_zero_of_lt hn)
      rw [hstep, if_pos hkey, getMember, if_pos hkey]
      rfl
    · obtain ⟨hv, hpass⟩ := hpass.resolve_left hkey
      have hvalue : At s (p + 1 + (memberStart before key colonBefore colonAfter).length)
          (v.text ++ ((after.1 ++ chr ',' :: ms.text ++ t) ++ 0 :: r)) := by
        have := h.append.append
        rw [length_sep hsep] at this
        simpa using this
      have hbehind : At s (p + 1 + (memberStart before key colonBefore colonAfter).length +
          v.text.length) (after.1 ++ chr ',' :: (ms.text ++ (t ++ 0 :: r))) := by
        simpa using hvalue.append
      have hfollow : Follow (after.1 ++ chr ',' :: (ms.text ++ t)) :=
        follow_append after (.inl rfl) (by simp [ms.zero_not_mem, ht])
      have hhandled := handled_of_simple hv after (ms.text ++ t)
      have hscanned := (scanned_iff v hvalue (by simpa using hfollow)).mpr (by simpa using hhandled)
      obtain ⟨n₀, hrest⟩ := valueRest_more name hscanned.findsEnd hbehind hbrace ms.zero_not_mem
      obtain ⟨n₁, hmore⟩ := valueLoop_members name ms (.inr rfl) hbehind.append ht hpass
      refine ⟨max n₀ n₁ + 1, fun n hn => ?_⟩
      obtain ⟨n, rfl⟩ := Nat.exists_eq_add_one_of_ne_zero (Nat.ne_zero_of_lt hn)
      rw [hstep, if_neg hkey, hrest n (by omega), hmore n (by omega), getMember]
      rw [if_neg hkey, Option.map_map]
      refine congrArg (fun f => Except.ok (Option.map f (getMember name ms))) ?_
      funext m
      simp only [Function.comp_apply]
      omega

theorem findsValue_members {w : Ws} (h : At s p (w.1 ++ chr '{' :: (ms.text ++ (t ++ 0 :: r))))
    (ht : 0 ∉ t) (hpass : Passes name ms t) : FindsValue s name p
      ((getMember name ms).map fun m => p + w.1.length + 1 + m.2) := by
  obtain ⟨n₀, hloop⟩ := valueLoop_members name ms (.inl rfl) h.append ht hpass
  refine ⟨n₀, ?_⟩
  rw [findValue, skipWhile_at h w.isspace (by decide), ok_bind, load_at h.append, ok_bind,
    if_neg (by simp), hloop n₀ (Nat.le_refl _)]

/-- The value at a path, and its place. -/
def getPath : List (List UInt8) → Value → Option (Value × ℕ)
  | [], v => some (v, 0)
  | name :: names, .obj ms =>
    (getMember name ms).bind fun m => (getPath names m.1).map fun x => (x.1, 1 + m.2 + x.2)
  | _ :: _, _ => none

def ReachesPath : List (List UInt8) → Value → Prop
  | [], _ => True
  | name :: names, .obj ms => Reaches name ms ∧ ∀ m ∈ getMember name ms, ReachesPath names m.1
  | _ :: _, _ => False

/-- A lookup of each name, in what has been found for the one before. -/
def FindsPath (s : List UInt8) : List (List UInt8) → ℕ → ℕ → Prop
  | [], p, q => q = p
  | name :: names, p, q => ∃ q', FindsValue s name p (some q') ∧ FindsPath s names q' q

theorem at_member {m : Value × ℕ} : {ms : Members} → {p : ℕ} →
    At s p (ms.text ++ (t ++ 0 :: r)) → 0 ∉ t → getMember name ms = some m →
    ∃ t', 0 ∉ t' ∧ At s (p + m.2) (m.1.text ++ (t' ++ 0 :: r))
  | .last before key colonBefore colonAfter v after, p, h, ht, hm => by
    rw [getMember] at hm
    split at hm
    · obtain rfl := Option.some.inj hm
      have h : At s p (memberStart before key colonBefore colonAfter ++ (v.text ++
          ((after.1 ++ chr '}' :: t) ++ 0 :: r))) := by
        simpa [Members.text] using h
      exact ⟨_, by simp [ht, chr], h.append⟩
    · cases hm
  | .more before key colonBefore colonAfter v after ms, p, h, ht, hm => by
    have h : At s p (memberStart before key colonBefore colonAfter ++ (v.text ++
        ((after.1 ++ chr ',' :: (ms.text ++ t)) ++ 0 :: r))) := by
      simpa [Members.text] using h
    rw [getMember] at hm
    split at hm
    · obtain rfl := Option.some.inj hm
      exact ⟨_, by simp [ht, chr, ms.zero_not_mem], h.append⟩
    · obtain ⟨m, hfound, rfl⟩ := Option.map_eq_some_iff.mp hm
      have hbehind : At s (p + (memberStart before key colonBefore colonAfter).length +
          v.text.length) ((after.1 ++ [chr ',']) ++ (ms.text ++ (t ++ 0 :: r))) := by
        simpa using h.append.append
      obtain ⟨t', ht', hat⟩ := at_member hbehind.append ht hfound
      refine ⟨t', ht', ?_⟩
      simpa [Nat.add_assoc] using hat

/-- The lookups find the value at the path. -/
theorem findsPath {names : List (List UInt8)} (h : At s p (v.text ++ (t ++ 0 :: r))) (ht : 0 ∉ t)
    (hpath : ReachesPath names v) : ∃ x, getPath names v = some x ∧ FindsPath s names p (p + x.2) ∧
      ∃ t', At s (p + x.2) (x.1.text ++ (t' ++ 0 :: r)) := by
  induction names generalizing v p t with
  | nil => exact ⟨(v, 0), rfl, rfl, t, h⟩
  | cons name names ih =>
    cases v with
    | obj ms =>
      obtain ⟨hreach, hnames⟩ := hpath
      obtain ⟨m, hm⟩ := hreach.exists
      have hfind := findsValue_members (w := ⟨[], by simp⟩) h ht (hreach.passes t)
      obtain ⟨t', ht', hvalue⟩ := at_member h.cons ht hm
      obtain ⟨x, hx, hxs, t'', hat⟩ := ih hvalue ht' (hnames m hm)
      refine ⟨(x.1, 1 + m.2 + x.2), ?_, ⟨p + 1 + m.2, ?_, ?_⟩, t'', ?_⟩
      · rw [getPath, hm, Option.bind_some, hx]
        rfl
      · rw [hm] at hfind
        exact hfind
      · rw [← Nat.add_assoc, ← Nat.add_assoc]
        exact hxs
      · rw [← Nat.add_assoc, ← Nat.add_assoc]
        exact hat
    | null | bool | str | num | emptyArr | arr | emptyObj => exact hpath.elim

theorem isWs_nil : ∀ c ∈ ([] : List UInt8), isWs c = true := by simp

def noWs : Ws := ⟨[], isWs_nil⟩

def nameB : Str := [.plain (chr 'b') (by decide)]

def digit (d : UInt8) (hdigit : isdigit d = true) (hzero : d ≠ chr '0') : Value :=
  .num ⟨false, ⟨[d], by simp [hdigit]⟩, by simp [hzero], none, none⟩

/-- The object `{"a":1,"b":{"c":2}}`. -/
def nested : Value :=
  .obj (.more noWs nameA noWs noWs (digit (chr '1') (by decide) (by decide)) noWs
    (.last noWs nameB noWs noWs
      (.obj (.last noWs [.plain (chr 'c') (by decide)] noWs noWs
        (digit (chr '2') (by decide) (by decide)) noWs)) noWs))

theorem findsPath_nested : At (nested.text ++ [0]) 0 (nested.text ++ ([] ++ 0 :: [])) ∧
    ReachesPath [[chr 'b'], [chr 'c']] nested ∧
    ∃ x, getPath [[chr 'b'], [chr 'c']] nested = some x ∧
      FindsPath (nested.text ++ [0]) [[chr 'b'], [chr 'c']] 0 (0 + x.2) ∧
      ∃ t', At (nested.text ++ [0]) (0 + x.2) (x.1.text ++ (t' ++ 0 :: [])) := by
  have hat : At (nested.text ++ [0]) 0 (nested.text ++ ([] ++ 0 :: [])) := rfl
  have hinner : Reaches [chr 'c'] (.last ⟨[], by decide⟩ [.plain (chr 'c') (by decide)]
      ⟨[], by decide⟩ ⟨[], by decide⟩
      (.num ⟨false, ⟨[chr '2'], by decide⟩, by decide, none, none⟩) ⟨[], by decide⟩) := rfl
  have hpath : ReachesPath [[chr 'b'], [chr 'c']] nested := by
    refine ⟨.inr ⟨by simp [Simple, isSigned, digit], rfl⟩, fun m hm => ?_⟩
    obtain rfl := Option.some.inj (hm : some _ = some m)
    exact ⟨hinner, fun _ _ => trivial⟩
  exact ⟨hat, hpath, findsPath hat (by simp) hpath⟩

end Libuo.JsonLookup
