import Libuo.Json
import Libuo.JsonGrammar
import Libuo.JsonStrings

/-!
# The scanner

What the functions of the scanner share: more fuel never changes a result, and no
result lies before the place where the search began.
-/

namespace Libuo.JsonScanner
open CStrings Json JsonGrammar JsonStrings

variable {s : List UInt8} {find find' : ℕ → Scan (Option ℕ)}

theorem objLoop_extends (hf : ∀ p, Extends (find p) (find' p)) {n m : ℕ} (h : n ≤ m) (p : ℕ) :
    Extends (objLoop s find n p) (objLoop s find' m p) := by
  induction n generalizing m p with
  | zero => exact extends_fuel _
  | succ n ih =>
    obtain ⟨m, rfl⟩ := Nat.exists_eq_add_one_of_ne_zero (Nat.ne_zero_of_lt h)
    have ih := ih (m := m) (by omega)
    unfold objLoop
    refine (Extends.refl _).bind fun c => ?_
    split <;> [exact .refl _; skip]
    refine (Extends.refl _).bind fun rightBrace => ?_
    split <;> [skip; exact .refl _]
    refine (Extends.refl _).bind fun key => ?_
    split <;> [skip; exact .refl _]
    split <;> [exact .refl _; skip]
    refine (Extends.refl _).bind fun keyEnd => ?_
    split <;> [skip; exact .refl _]
    refine (Extends.refl _).bind fun colon => ?_
    split <;> [skip; exact .refl _]
    refine (Extends.refl _).bind fun p => (hf p).bind fun e => ?_
    split <;> [skip; exact .refl _]
    refine (Extends.refl _).bind fun rightBrace => ?_
    split <;> [skip; exact .refl _]
    refine (Extends.refl _).bind fun comma => ?_
    split <;> [exact ih _; exact .refl _]

theorem arrLoop_extends (hf : ∀ p, Extends (find p) (find' p)) {n m : ℕ} (h : n ≤ m) (p : ℕ) :
    Extends (arrLoop s find n p) (arrLoop s find' m p) := by
  induction n generalizing m p with
  | zero => exact extends_fuel _
  | succ n ih =>
    obtain ⟨m, rfl⟩ := Nat.exists_eq_add_one_of_ne_zero (Nat.ne_zero_of_lt h)
    have ih := ih (m := m) (by omega)
    unfold arrLoop
    refine (Extends.refl _).bind fun c => ?_
    split <;> [exact .refl _; skip]
    refine (Extends.refl _).bind fun p => (hf p).bind fun e => ?_
    split <;> [skip; exact .refl _]
    refine (Extends.refl _).bind fun rightBracket => ?_
    split <;> [skip; exact .refl _]
    refine (Extends.refl _).bind fun comma => ?_
    split <;> [exact ih _; exact .refl _]

/-- A result of the scanner does not depend on the fuel. -/
theorem findEnd_extends {n m : ℕ} (h : n ≤ m) (p : ℕ) :
    Extends (findEnd s n p) (findEnd s m p) := by
  induction n generalizing m p with
  | zero => exact extends_fuel _
  | succ n ih =>
    obtain ⟨m, rfl⟩ := Nat.exists_eq_add_one_of_ne_zero (Nat.ne_zero_of_lt h)
    have hle : n ≤ m := by omega
    unfold findEnd
    refine (Extends.refl _).bind fun p => (Extends.refl _).bind fun c => ?_
    split <;> [exact .refl _; skip]
    split <;> [exact objLoop_extends (fun p => ih hle p) hle _; skip]
    split <;> [skip; exact .refl _]
    unfold findArrEnd
    refine (Extends.refl _).bind fun rightBracket => ?_
    split <;> [skip; exact .refl _]
    split <;> [exact .refl _; exact arrLoop_extends (fun p => ih hle p) hle _]

theorem findEnd_mono {n m p : ℕ} {r : Option ℕ} (h : n ≤ m) (hr : findEnd s n p = .ok r) :
    findEnd s m p = .ok r := (findEnd_extends h p).ok hr

theorem FindsEnd.unique {p : ℕ} {r r' : Option ℕ} (h : FindsEnd s p r) (h' : FindsEnd s p r') :
    r = r' := by
  obtain ⟨n, hn⟩ := h
  obtain ⟨m, hm⟩ := h'
  have hn := findEnd_mono (Nat.le_max_left n m) hn
  have hm := findEnd_mono (Nat.le_max_right n m) hm
  exact Except.ok.inj (hn.symm.trans hm)

theorem valueLoop_extends {name : List UInt8} {n m : ℕ} (h : n ≤ m) (p : ℕ) :
    Extends (valueLoop s name n p) (valueLoop s name m p) := by
  induction n generalizing m p with
  | zero => exact extends_fuel _
  | succ n ih =>
    obtain ⟨m, rfl⟩ := Nat.exists_eq_add_one_of_ne_zero (Nat.ne_zero_of_lt h)
    have hle : n ≤ m := by omega
    unfold valueLoop
    refine (Extends.refl _).bind fun c => ?_
    split <;> [exact .refl _; skip]
    refine (Extends.refl _).bind fun rightBrace => ?_
    split <;> [skip; exact .refl _]
    refine (Extends.refl _).bind fun key => ?_
    split <;> [skip; exact .refl _]
    split <;> [exact .refl _; skip]
    refine (Extends.refl _).bind fun keyEnd => ?_
    split <;> [skip; exact .refl _]
    refine (Extends.refl _).bind fun colon => ?_
    split <;> [skip; exact .refl _]
    refine (Extends.refl _).bind fun p => ?_
    split <;> [exact .refl _; skip]
    refine (findEnd_extends hle p).bind fun e => ?_
    split <;> [skip; exact .refl _]
    refine (Extends.refl _).bind fun rightBrace => ?_
    split <;> [skip; exact .refl _]
    refine (Extends.refl _).bind fun comma => ?_
    split <;> [exact ih hle _; exact .refl _]

theorem findValue_mono {name : List UInt8} {n m p : ℕ} {r : Option ℕ} (h : n ≤ m)
    (hr : findValue s name n p = .ok r) : findValue s name m p = .ok r := by
  refine Extends.ok ?_ hr
  unfold findValue
  refine (Extends.refl _).bind fun p => (Extends.refl _).bind fun c => ?_
  split <;> [exact .refl _; exact valueLoop_extends h p]

/-- The result is `NULL` or a position that satisfies a condition. -/
abbrev ReturnsAhead (x : Scan (Option ℕ)) (P : ℕ → Prop) : Prop := Returns x fun r => ∀ q ∈ r, P q

theorem findQuote_ahead (s : List UInt8) (n p : ℕ) :
    ReturnsAhead (findQuote s n p) (p ≤ ·) := by
  induction n generalizing p with
  | zero => exact returns_error
  | succ n ih =>
    unfold findQuote
    refine (strchr_returns _ _ _).bind fun quote hquote => ?_
    split <;> [simp; skip]
    have hquote := hquote _ rfl
    refine (returns_true _).bind fun isEscaped _ => ?_
    split <;> [skip; (simp; omega)]
    exact fun r hr q hq => by have := ih _ r hr q hq; omega

theorem findStrEnd_ahead (s : List UInt8) (p : ℕ) : ReturnsAhead (findStrEnd s p) (p < ·) := by
  refine (findQuote_ahead s _ _).bind fun quote hquote => ?_
  rw [pure_eq_ok, returns_ok]
  intro q hq
  obtain ⟨k, hk, rfl⟩ := Option.map_eq_some_iff.mp hq
  have := hquote k hk
  omega

theorem findNumEnd_ahead (s : List UInt8) (p : ℕ) : ReturnsAhead (findNumEnd s p) (p ≤ ·) := by
  have hstop (q : ℕ) (h : p ≤ q) : ReturnsAhead (findNumEnd.numStop s q) (p ≤ ·) := by
    refine (returns_true _).bind fun c _ => ?_
    rw [pure_eq_ok, returns_ok]
    split <;> simp [h]
  have hopt (q : ℕ) (c d : UInt8) (h : p ≤ q) : p ≤ if c = d then q + 1 else q := by
    split <;> omega
  unfold findNumEnd
  refine (returns_true _).bind fun c _ => (skipWhile_returns _ _ _).bind fun q hq => ?_
  have hq := Nat.le_trans (hopt p c _ (Nat.le_refl _)) hq
  refine (returns_true _).bind fun c _ => ?_
  split <;> [(simp; omega); skip]
  refine (returns_true _).bind fun c _ => (skipWhile_returns _ _ _).bind fun q' hq' => ?_
  have hq' := Nat.le_trans (hopt q c _ hq) hq'
  unfold findNumEnd.numExp
  refine (returns_true _).bind fun c _ => ?_
  split <;> [skip; exact hstop _ hq']
  refine (returns_true _).bind fun sign _ => ?_
  split <;> [simp; skip]
  exact (skipWhile_returns _ _ _).bind fun q'' hq'' => hstop _ (by omega)

theorem objLoop_ahead (hf : ∀ p, ReturnsAhead (find p) (p ≤ ·)) (n p : ℕ) :
    ReturnsAhead (objLoop s find n p) (p < ·) := by
  induction n generalizing p with
  | zero => exact returns_error
  | succ n ih =>
    unfold objLoop
    refine (returns_true _).bind fun c _ => ?_
    split <;> [simp; skip]
    refine (strchr_returns _ _ _).bind fun rightBrace hbrace => ?_
    split <;> [skip; simp]
    have hbrace := hbrace _ rfl
    refine (strchr_returns _ _ _).bind fun key hkey => ?_
    split <;> [skip; (simp; omega)]
    have hkey := hkey _ rfl
    split <;> [(simp; omega); skip]
    refine (findStrEnd_ahead s _).bind fun keyEnd hend => ?_
    split <;> [skip; simp]
    have hend := hend _ rfl
    refine (strchr_returns _ _ _).bind fun colon hcolon => ?_
    split <;> [skip; simp]
    have hcolon := hcolon _ rfl
    refine (skipWhile_returns _ _ _).bind fun v hv => (hf v).bind fun e he => ?_
    split <;> [skip; simp]
    have he := he _ rfl
    refine (strchr_returns _ _ _).bind fun rightBrace hbrace => ?_
    split <;> [skip; simp]
    have hbrace := hbrace _ rfl
    refine (strchr_returns _ _ _).bind fun comma hcomma => ?_
    split <;> [skip; (simp; omega)]
    have hcomma := hcomma _ rfl
    exact fun r hr q hq => by have := ih _ r hr q hq; omega

theorem arrLoop_ahead (hf : ∀ p, ReturnsAhead (find p) (p ≤ ·)) (n p : ℕ) :
    ReturnsAhead (arrLoop s find n p) (p < ·) := by
  induction n generalizing p with
  | zero => exact returns_error
  | succ n ih =>
    unfold arrLoop
    refine (returns_true _).bind fun c _ => ?_
    split <;> [simp; skip]
    refine (skipWhile_returns _ _ _).bind fun v hv => (hf v).bind fun e he => ?_
    split <;> [skip; simp]
    have he := he _ rfl
    refine (strchr_returns _ _ _).bind fun rightBracket hbracket => ?_
    split <;> [skip; simp]
    have hbracket := hbracket _ rfl
    refine (strchr_returns _ _ _).bind fun comma hcomma => ?_
    split <;> [skip; (simp; omega)]
    have hcomma := hcomma _ rfl
    exact fun r hr q hq => by have := ih _ r hr q hq; omega

theorem findEnd_ahead (s : List UInt8) (n p : ℕ) : ReturnsAhead (findEnd s n p) (p ≤ ·) := by
  induction n generalizing p with
  | zero => exact returns_error
  | succ n ih =>
    have hlt {x : Scan (Option ℕ)} {q : ℕ} (hq : p ≤ q) (h : ReturnsAhead x (q < ·)) :
        ReturnsAhead x (p ≤ ·) := fun r hr k hk => by
      have := h r hr k hk
      omega
    unfold findEnd
    refine (skipWhile_returns _ _ _).bind fun q hq => (returns_true _).bind fun c _ => ?_
    split <;> [simp; skip]
    split <;> [exact hlt (by omega) (objLoop_ahead ih n (q + 1)); skip]
    split
    · unfold findArrEnd
      refine (strchr_returns _ _ _).bind fun rightBracket hbracket => ?_
      split <;> [skip; simp]
      have hbracket := hbracket _ rfl
      split <;> [(simp; omega); exact hlt (by omega) (arrLoop_ahead ih n (q + 1))]
    split <;> [exact hlt hq (findStrEnd_ahead s q); skip]
    split <;> [(simp; omega); skip]
    split <;> [(simp; omega); skip]
    split <;> [(simp; omega); skip]
    exact fun r hr k hk => Nat.le_trans hq (findNumEnd_ahead s q r hr k hk)

end Libuo.JsonScanner
