import Libuo.HttpReqMatch

/-!
# Request lines that are missed

A handler does not take every request line that fits its pattern: the pattern and the line
are compared as texts, so a value that starts with a brace and a text behind an asterisk in
the line are taken for the syntax of the pattern. All other lines that fit are taken.
-/

namespace Libuo.HttpReqMissed
open CStrings HttpReqHandler HttpReqPattern HttpReqMatch

variable {star : Bool} {lit l u v w name tail : List UInt8} {ps : List Slot}
  {vs vs' : List (List UInt8)} {st st' : State} {P : Pattern}

/-- A literal behind a parameter does not start with an asterisk; there may be none behind the last
one, which is then the end of the pattern. -/
def Closed (star : Bool) : List Slot → Prop
  | [] => True
  | (_, l) :: ps => (if l = [] then ps = [] ∧ star = false else l.head? ≠ some (chr '*')) ∧
    Closed star ps

/-- A request line that fits a pattern: values that are free of the character behind them, and the
text in the place of the asterisk. -/
structure Request (P : Pattern) where
  values : List (List UInt8)
  tail : List UInt8
  length : values.length = P.slots.length
  free : ∀ e ∈ P.slots.zip values, ∀ c ∈ e.1.2.head?, c ∉ e.2
  tail_nil : P.star = false → tail = []

def Request.line (R : Request P) : List UInt8 := body P.first P.slots R.values ++ R.tail

/-- No character of the line is where the pattern has a character of its syntax. -/
def Request.Plain (R : Request P) : Prop :=
  (∀ v ∈ R.values, v.head? ≠ some (chr '{')) ∧
    ¬ (P.star = true ∧ ∃ c r, R.tail = chr '*' :: c :: r)

theorem delimits_body (hl : 0 ∉ l) (hclosed : Closed star ((name, l) :: ps))
    (hfree : ∀ c ∈ l.head?, c ∉ v) (hlen : vs.length = ps.length)
    (htail : star = false → tail = []) :
    Delimits (delimiter star l ps) v (body l ps vs ++ tail) := by
  cases l with
  | nil =>
    obtain ⟨rfl, rfl⟩ : ps = [] ∧ star = false := by simpa using hclosed.1
    obtain rfl := List.length_eq_zero_iff.mp hlen
    obtain rfl := htail rfl
    rfl
  | cons c l =>
    have hc : delimiter star (c :: l) ps = c := by
      cases ps <;> rfl
    have hc0 : c ≠ 0 := fun h => hl (h ▸ .head _)
    rw [hc, Delimits, if_neg hc0]
    refine ⟨hfree c rfl, ?_⟩
    cases ps with
    | nil => rfl
    | cons p ps =>
      cases vs with
      | nil => rfl
      | cons v vs => rfl

theorem head_ne_brace (hl : chr '{' ∉ l) (hclosed : Closed star ((name, l) :: ps))
    (h : Delimits (delimiter star l ps) v w) : w.head? ≠ some (chr '{') := by
  cases l with
  | nil =>
    obtain ⟨rfl, rfl⟩ : ps = [] ∧ star = false := by simpa using hclosed.1
    obtain rfl : w = [] := h
    exact nofun
  | cons c l =>
    have hc : delimiter star (c :: l) ps = c := by
      cases ps <;> rfl
    rw [hc, Delimits] at h
    split at h
    · rw [h]
      exact nofun
    · rw [h.2]
      exact fun he => hl (Option.some.inj he ▸ .head _)

theorem endsHere_asterisk (htail : star = false → tail = []) :
    endsHere (asterisk star) tail = true ↔
      ¬ (star = true ∧ ∃ c r, tail = chr '*' :: c :: r) := by
  cases star with
  | false =>
    obtain rfl := htail rfl
    simp [asterisk, endsHere, strdiff]
  | true =>
    cases tail with
    | nil => simp [asterisk, endsHere, strdiff, charAt]
    | cons c r =>
      by_cases hc : chr '*' = c
      · cases r with
        | nil => simp [asterisk, endsHere, strdiff, hc]
        | cons d r =>
          subst hc
          have hne : 0 ≠ chr '*' := by decide
          simp [asterisk, endsHere, strdiff, charAt, hne]
      · simp [asterisk, endsHere, strdiff, hc, charAt, Ne.symm hc]

theorem fits_body (hlit : IsLiteral lit)
    (hps : ∀ p ∈ ps, IsName p.1 ∧ IsLiteral p.2) (hclosed : Closed star ps)
    (hlen : vs.length = ps.length) (hfree : ∀ e ∈ ps.zip vs, ∀ c ∈ e.1.2.head?, c ∉ e.2)
    (htail : star = false → tail = []) :
    Fits star lit ps vs' (body lit ps vs ++ tail) ↔
      vs' = vs ∧ (∀ v ∈ vs, v.head? ≠ some (chr '{')) ∧
        ¬ (star = true ∧ ∃ c r, tail = chr '*' :: c :: r) := by
  induction ps generalizing lit vs vs' with
  | nil =>
    obtain rfl := List.length_eq_zero_iff.mp hlen
    cases vs' with
    | nil =>
      rw [Fits, body_nil, endsHere_append, endsHere_asterisk htail]
      simp
    | cons v vs' => simp [Fits]
  | cons p ps ih =>
    obtain ⟨name, l⟩ := p
    cases vs with
    | nil => exact nomatch hlen
    | cons v vs =>
      have hl := (hps (name, l) (.head _)).2
      have hdelim := delimits_body (v := v) hl.1 hclosed (hfree _ (.head _)) (Nat.succ.inj hlen)
        htail
      have ih (us : List (List UInt8)) : Fits star l ps us (body l ps vs ++ tail) ↔ _ :=
        ih hl (fun p hp => hps p (.tail _ hp)) hclosed.2 (Nat.succ.inj hlen) fun e he =>
          hfree e (.tail _ he)
      cases vs' with
      | nil => simp [Fits]
      | cons v' vs' =>
        rw [body_cons, List.forall_mem_cons]
        constructor
        · rintro ⟨w, hu, hhead, hdelim', hfits⟩
          have hu : v ++ (body l ps vs ++ tail) = v' ++ w := by simpa using hu
          obtain ⟨rfl, rfl⟩ := hdelim.unique hdelim' hu
          obtain ⟨rfl, hplain, hend⟩ := (ih _).mp hfits
          refine ⟨rfl, ⟨fun hv => hhead ?_, hplain⟩, hend⟩
          rw [List.head?_append, hv]
          rfl
        · rintro ⟨he, ⟨hv, hplain⟩, hend⟩
          obtain ⟨rfl, rfl⟩ := List.cons.inj he
          refine ⟨body l ps vs' ++ tail, by simp, ?_, hdelim, (ih _).mpr ⟨rfl, hplain, hend⟩⟩
          cases v' with
          | nil => exact head_ne_brace hl.2 hclosed hdelim
          | cons c v' => exact hv

/-- A request line that fits is taken just in case nothing in it looks like the pattern syntax. -/
theorem attempt_iff_plain (P : Pattern) (hclosed : Closed P.star P.slots) (R : Request P)
    (st : State) : (∃ st', attempt P R.line st = .ok (st', true)) ↔ R.Plain := by
  have hfits (us : List (List UInt8)) :
      Fits P.star P.first P.slots us R.line ↔ us = R.values ∧ R.Plain :=
    fits_body P.isLiteral P.isSlot hclosed R.length R.free R.tail_nil
  constructor
  · rintro ⟨st', h⟩
    obtain ⟨vs', h, -⟩ := attempt_true.mp h
    exact ((hfits _).mp h).2
  · intro h
    exact ⟨_, attempt_true.mpr ⟨R.values, (hfits _).mpr ⟨rfl, h⟩, rfl⟩⟩

/-- A request for the text of a pattern up to its first closing brace makes the handler read through
the null pointer. -/
theorem attempt_null (h : P.slots = (name, l) :: ps) (st : State) :
    attempt P (P.first ++ chr '{' :: name) st = .error .nullPointer := by
  have hname := (P.isSlot (name, l) (h ▸ .head _)).1
  have hdiff : strdiff (CText.cstr P.handler.reqPattern) (P.first ++ chr '{' :: name) = none := by
    rw [Pattern.handler, h, cstr_compiled_cons P.isLiteral.1 hname.1]
    exact strdiff_eq_none.mpr rfl
  have hcount : P.handler.paramCount = ps.length + 1 := by
    rw [Pattern.handler, h]
    rfl
  rw [attempt_eq, tryHandler, hcount, if_neg (Nat.succ_ne_zero _), matchParams, List.drop_zero,
    hdiff]
  rfl

/-- The request line `GET /7/*` of the pattern `GET /{id}/*`. -/
def starred : Request sample where
  values := [CText.text "7"]
  tail := CText.text "*"
  length := rfl
  free := by decide
  tail_nil := nofun

theorem attempt_starred : ∃ st', attempt sample starred.line ⟨[], [], []⟩ = .ok (st', true) :=
  (attempt_iff_plain sample ⟨by decide, trivial⟩ starred ⟨[], [], []⟩).mpr
    ⟨by decide, fun ⟨_, _, _, h⟩ => absurd (congrArg List.length h) (by simp [starred, CText.text])⟩

/-- The request line `GET /7/*x` of the pattern `GET /{id}/*`. -/
def starredOn : Request sample where
  values := [CText.text "7"]
  tail := CText.text "*x"
  length := rfl
  free := by decide
  tail_nil := nofun

theorem attempt_starredOn :
    attempt sample starredOn.line ⟨[], [], []⟩ = .ok (⟨[], [], []⟩, false) := by
  decide +kernel

/-- Lines that fit are missed. -/
theorem not_all_taken : ¬ ∀ (P : Pattern) (_ : Closed P.star P.slots) (R : Request P) (st : State),
    ∃ st', attempt P R.line st = .ok (st', true) := fun h => by
  obtain ⟨st', h⟩ := h sample ⟨by decide, trivial⟩ starredOn ⟨[], [], []⟩
  rw [attempt_starredOn] at h
  simp at h

end Libuo.HttpReqMissed
