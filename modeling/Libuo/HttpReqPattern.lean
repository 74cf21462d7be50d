import Libuo.HttpReqHandler

/-!
# Patterns of requests

A pattern is a literal, then parameters with a literal behind each of them, then possibly
an asterisk. The matching of a handler that is made from it is described by the values
that the request line has in the places of the parameters.
-/

namespace Libuo.HttpReqPattern
open CStrings OrderedMap HttpReqHandler
open CText hiding strchr
open HttpMsg (strings)

/-- The name of a parameter, and the literal behind it. -/
abbrev Slot := List UInt8 × List UInt8

def IsLiteral (l : List UInt8) : Prop := 0 ∉ l ∧ chr '{' ∉ l

def IsName (n : List UInt8) : Prop := 0 ∉ n ∧ chr '{' ∉ n ∧ chr '}' ∉ n

instance (l : List UInt8) : Decidable (IsLiteral l) := inferInstanceAs (Decidable (_ ∧ _))

instance (n : List UInt8) : Decidable (IsName n) := inferInstanceAs (Decidable (_ ∧ _))

/-- A pattern. -/
structure Pattern where
  first : List UInt8
  slots : List Slot
  star : Bool
  isLiteral : IsLiteral first
  isSlot : ∀ p ∈ slots, IsName p.1 ∧ IsLiteral p.2

/-- The asterisk of a pattern that has one. -/
def asterisk (star : Bool) : List UInt8 := if star then [chr '*'] else []

/-- The text of a pattern, from a literal on. -/
def spell (star : Bool) : List UInt8 → List Slot → List UInt8
  | lit, [] => lit ++ asterisk star
  | lit, (name, l) :: ps => lit ++ chr '{' :: (name ++ chr '}' :: spell star l ps)

def Pattern.text (P : Pattern) : List UInt8 := spell P.star P.first P.slots

/-- What `uo_http_req_handler_create` makes of the text. -/
def compiled (star : Bool) : List UInt8 → List Slot → List UInt8
  | lit, [] => lit ++ asterisk star ++ [0, 0]
  | lit, (name, l) :: ps => lit ++ chr '{' :: (name ++ 0 :: compiled star l ps)

def Pattern.handler (P : Pattern) : Handler := ⟨compiled P.star P.first P.slots, P.slots.length⟩

variable {star : Bool} {lit name l u v w : List UInt8} {ps : List Slot} {fuel pos : ℕ}

theorem zero_not_mem_asterisk (star : Bool) : 0 ∉ asterisk star := by
  cases star <;> decide

theorem brace_not_mem_asterisk (star : Bool) : chr '{' ∉ asterisk star := by
  cases star <;> decide

theorem strchr_none (h : chr '{' ∉ l) : CText.strchr l (chr '{') = none :=
  List.idxOf?_eq_none_iff.mpr h

theorem closeParams_spell (star : Bool) (hlit : IsLiteral lit)
    (hps : ∀ p ∈ ps, IsName p.1 ∧ IsLiteral p.2) (hfuel : ps.length ≤ fuel) :
    ∃ s, closeParams fuel (spell star lit ps) = .ok (s, ps.length) ∧
      s ++ [0, 0] = compiled star lit ps := by
  induction ps generalizing lit fuel with
  | nil =>
    refine ⟨lit ++ asterisk star, ?_, rfl⟩
    cases fuel with
    | zero => rfl
    | succ fuel =>
      have : CText.strchr (lit ++ asterisk star) (chr '{') = none :=
        strchr_none fun h => (List.mem_append.mp h).elim hlit.2 (brace_not_mem_asterisk star)
      simp only [spell, closeParams, this]
      rfl
  | cons p ps ih =>
    obtain ⟨name, l⟩ := p
    obtain ⟨⟨hname, hopen, hclose⟩, hl⟩ := hps (name, l) (.head _)
    obtain ⟨fuel, rfl⟩ : ∃ k, fuel = k + 1 := ⟨fuel - 1, by simp at hfuel; omega⟩
    obtain ⟨s, hs, hcompiled⟩ := ih hl (fun p hp => hps p (.tail _ hp))
      (by simpa using hfuel : ps.length ≤ fuel)
    refine ⟨lit ++ chr '{' :: name ++ 0 :: s, ?_, ?_⟩
    · have hbrace : CText.strchr (spell star lit ((name, l) :: ps)) (chr '{') = some lit.length :=
        strchr_eq hlit.2
      have hdrop : (spell star lit ((name, l) :: ps)).drop lit.length =
          chr '{' :: name ++ chr '}' :: spell star l ps := by
        rw [spell, List.drop_left]
        simp
      have hend : CText.strchr (chr '{' :: name ++ chr '}' :: spell star l ps) (chr '}') =
          some (name.length + 1) :=
        strchr_eq fun h => (List.mem_cons.mp h).elim (by decide) hclose
      have hrest : (spell star lit ((name, l) :: ps)).drop (lit.length + (name.length + 1) + 1) =
          spell star l ps := by
        rw [Nat.add_assoc, ← List.drop_drop, hdrop]
        simp
      have htake : (spell star lit ((name, l) :: ps)).take (lit.length + (name.length + 1)) =
          lit ++ chr '{' :: name := by
        rw [List.take_add, hdrop, spell]
        simp
      simp only [closeParams, hbrace, hdrop, hend, hrest, hs, htake]
      rfl
    · rw [compiled, ← hcompiled]
      simp

theorem length_slots_le : ps.length ≤ (spell star lit ps).length := by
  induction ps generalizing lit with
  | nil => exact Nat.zero_le _
  | cons p ps ih =>
    obtain ⟨name, l⟩ := p
    have hlen : ps.length ≤ (spell star l ps).length := ih
    simp only [spell, List.length_append, List.length_cons]
    omega

/-- A handler is created from every pattern. -/
theorem create_text (P : Pattern) : create P.text = .ok P.handler := by
  obtain ⟨s, hs, hcompiled⟩ := closeParams_spell P.star P.isLiteral P.isSlot
    length_slots_le
  rw [create, Pattern.text, hs]
  exact congrArg (fun b => Except.ok (Handler.mk b P.slots.length)) hcompiled

/-- The character that ends the value of a parameter. -/
def delimiter (star : Bool) (l : List UInt8) (ps : List Slot) : UInt8 :=
  charAt (compiled star l ps) 0

/-- A request line from a literal on, with the values of the parameters in it. -/
def Fits (star : Bool) : List UInt8 → List Slot → List (List UInt8) → List UInt8 → Prop
  | lit, [], [], u => endsHere (lit ++ asterisk star) u = true
  | lit, (_, l) :: ps, v :: vs, u =>
    ∃ w, u = lit ++ (v ++ w) ∧ (v ++ w).head? ≠ some (chr '{') ∧
      Delimits (delimiter star l ps) v w ∧ Fits star l ps vs w
  | _, _, _, _ => False

/-- The parameters of a request line from a position on. -/
def placed : ℕ → List UInt8 → List Slot → List (List UInt8) → List Param
  | pos, lit, (name, l) :: ps, v :: vs =>
    ⟨name, pos + lit.length, pos + lit.length + v.length⟩ ::
      placed (pos + lit.length + v.length) l ps vs
  | _, _, _, _ => []

variable {line : List UInt8} {vs : List (List UInt8)} {params : List Param}

theorem cstr_compiled_nil (h : 0 ∉ lit) :
    cstr (compiled star lit []) = lit ++ asterisk star := by
  rw [compiled, cstr_append fun h0 => (List.mem_append.mp h0).elim h (zero_not_mem_asterisk star)]
  exact List.append_nil _

theorem cstr_compiled_cons (h : 0 ∉ lit) (hname : 0 ∉ name) :
    cstr (compiled star lit ((name, l) :: ps)) = lit ++ chr '{' :: name := by
  have hbrace : 0 ∉ chr '{' :: name := fun h0 => (List.mem_cons.mp h0).elim (by decide) hname
  rw [compiled, cstr_append h, ← List.cons_append, cstr_append hbrace]
  exact congrArg (lit ++ ·) (List.append_nil _)

/-- A handler with no parameters left has only the end of the line to check. -/
theorem matchParams_nil (h : 0 ∉ lit) : matchParams line 0 (compiled star lit []) pos =
    .ok (if endsHere (lit ++ asterisk star) (line.drop pos) then some [] else none) := by
  rw [matchParams, cstr_compiled_nil h]

/-- One round of the matching loop: the line has the literal, then a value up to the
delimiter, and the loop goes on from there. -/
theorem matchParams_cons (hlit : IsLiteral lit) (hname : IsName name) :
    matchParams line (ps.length + 1) (compiled star lit ((name, l) :: ps)) pos =
        .ok (some params) ↔
      ∃ v w params', line.drop pos = lit ++ (v ++ w) ∧ (v ++ w).head? ≠ some (chr '{') ∧
        Delimits (delimiter star l ps) v w ∧
        matchParams line ps.length (compiled star l ps) (pos + lit.length + v.length) =
          .ok (some params') ∧
        params = ⟨name, pos + lit.length, pos + lit.length + v.length⟩ :: params' := by
  have hcstr : cstr (compiled star lit ((name, l) :: ps)) = lit ++ chr '{' :: name :=
    cstr_compiled_cons hlit.1 hname.1
  have hbrace : (compiled star lit ((name, l) :: ps)).drop lit.length =
      (chr '{' :: name) ++ 0 :: compiled star l ps := List.drop_left
  have hlen : (cstr ((compiled star lit ((name, l) :: ps)).drop lit.length)).length =
      name.length + 1 := by
    rw [hbrace, cstr_append fun h0 => (List.mem_cons.mp h0).elim (by decide) hname.1]
    exact congrArg List.length (List.append_nil _)
  have hrest : (compiled star lit ((name, l) :: ps)).drop (lit.length + (name.length + 1) + 1) =
      compiled star l ps := by
    rw [Nat.add_assoc, ← List.drop_drop, hbrace]
    simp
  have hnamed : cstr ((compiled star lit ((name, l) :: ps)).drop (lit.length + 1)) = name := by
    rw [← List.drop_drop, hbrace, List.cons_append, List.drop_succ_cons, List.drop_zero,
      cstr_append hname.1]
    exact List.append_nil _
  rw [matchParams, hcstr]
  constructor
  · intro h
    cases hd : strdiff (lit ++ chr '{' :: name) (line.drop pos) with
    | none => simp [hd] at h
    | some d =>
      by_cases hat : charAt (lit ++ chr '{' :: name) d = chr '{'
      · obtain ⟨rfl, u, hu, hhead⟩ :=
          (strdiff_at (by decide) hlit.2 hname.2.1).mp ⟨hd, hat⟩
        have hdrop : line.drop (pos + lit.length) = u := by
          rw [← List.drop_drop, hu, List.drop_left]
        simp only [hd, hat, ne_eq, not_true, if_false, hlen, hrest, hnamed, hdrop] at h
        cases hk : strchr u (charAt (compiled star l ps) 0) with
        | none => simp [hk] at h
        | some k =>
          obtain ⟨v, w, rfl, rfl, hdelim⟩ := strchr_eq_some.mp hk
          simp only [hk] at h
          cases hm : matchParams line ps.length (compiled star l ps)
              (pos + lit.length + v.length) with
          | error e => simp [hm, Except.map] at h
          | ok r =>
            cases r with
            | none => simp [hm, Except.map] at h
            | some params' =>
              refine ⟨v, w, params', hu, hhead, hdelim, hm, ?_⟩
              simpa [hm, Except.map] using h.symm
      · simp [hd, hat] at h
  · rintro ⟨v, w, params', hu, hhead, hdelim, hm, rfl⟩
    obtain ⟨hd, hat⟩ := (strdiff_at (r := name) (by decide) hlit.2 hname.2.1).mpr
      ⟨rfl, v ++ w, hu, hhead⟩
    have hdrop : line.drop (pos + lit.length) = v ++ w := by
      rw [← List.drop_drop, hu, List.drop_left]
    have hk : strchr (v ++ w) (charAt (compiled star l ps) 0) = some v.length :=
      strchr_eq_some.mpr ⟨v, w, rfl, rfl, hdelim⟩
    simp only [hd, hat, ne_eq, not_true, if_false, hlen, hrest, hnamed, hdrop, hk, hm]
    rfl

/-- The matching succeeds on the lines that fit, and finds the values. -/
theorem matchParams_iff (hlit : IsLiteral lit) (hps : ∀ p ∈ ps, IsName p.1 ∧ IsLiteral p.2) :
    matchParams line ps.length (compiled star lit ps) pos = .ok (some params) ↔
      ∃ vs, Fits star lit ps vs (line.drop pos) ∧ params = placed pos lit ps vs := by
  induction ps generalizing lit pos params with
  | nil =>
    rw [List.length_nil, matchParams_nil hlit.1]
    constructor
    · intro h
      split at h
      · rename_i hend
        obtain rfl := Option.some.inj (Except.ok.inj h)
        exact ⟨[], hend, rfl⟩
      · simp at h
    · rintro ⟨vs, hfits, rfl⟩
      cases vs with
      | nil => rw [if_pos (show endsHere _ _ = true from hfits)]; rfl
      | cons v vs => exact hfits.elim
  | cons p ps ih =>
    obtain ⟨name, l⟩ := p
    obtain ⟨hname, hl⟩ := hps (name, l) (.head _)
    rw [List.length_cons, matchParams_cons hlit hname]
    have ih (n : ℕ) (qs : List Param) :
        matchParams line ps.length (compiled star l ps) n = .ok (some qs) ↔ _ :=
      ih hl fun p hp => hps p (.tail _ hp)
    constructor
    · rintro ⟨v, w, params', hu, hhead, hdelim, hm, rfl⟩
      obtain ⟨vs, hfits, rfl⟩ := (ih _ _).mp hm
      have hdrop : line.drop (pos + lit.length + v.length) = w := by
        rw [← List.drop_drop, ← List.drop_drop, hu, List.drop_left, List.drop_left]
      exact ⟨v :: vs, ⟨w, hu, hhead, hdelim, hdrop ▸ hfits⟩, rfl⟩
    · rintro ⟨vs, hfits, rfl⟩
      cases vs with
      | nil => exact hfits.elim
      | cons v vs =>
        obtain ⟨w, hu, hhead, hdelim, hfits⟩ := hfits
        have hdrop : line.drop (pos + lit.length + v.length) = w := by
          rw [← List.drop_drop, ← List.drop_drop, hu, List.drop_left, List.drop_left]
        exact ⟨v, w, _, hu, hhead, hdelim, (ih _ _).mpr ⟨vs, hdrop.symm ▸ hfits, rfl⟩, rfl⟩

end Libuo.HttpReqPattern
