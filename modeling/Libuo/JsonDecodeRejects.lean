import Libuo.JsonDecodeUnicode
import Libuo.JsonDecodeWrites
import Libuo.JsonGrammar

/-!
# What the decoder rejects

The decoder against the grammar of literals. It rejects text without quotes around it and escapes
that are unknown or cut off. Characters are stored as they are, also control characters and quotes,
and the field of a `\u` escape is left to `sscanf`, which does not ask for four digits.
-/

namespace Libuo.JsonDecodeRejects
open CStrings JsonDecode JsonDecodeWrites JsonGrammar
open JsonDecodeUnicode (Hex escaped step_escaped)
open Json (shortEscape)

/-- A sequence of bytes that is a literal of the grammar. -/
def Literal (text : List UInt8) : Prop := ∃ u : Str, text = quoted u.body

/-- A control character or a quote comes next, or a `\u` escape without four hexadecimal digits. -/
inductive Flaw : List UInt8 → Prop
  | control {c t} : c < 0x20 → Flaw (c :: t)
  | quote {t} : Flaw (chr '"' :: t)
  | field {t} : (¬ ∀ d ∈ t.take 4, isxdigit d = true) → Flaw (chr '\\' :: chr 'u' :: t)

/-- The decoder comes to a flaw. -/
inductive Flawed : List UInt8 → Prop
  | here {t} : Flaw t → Flawed t
  | next {t u} : (step t).Leaves u → Flawed u → Flawed t

variable {t u w text : List UInt8} {c e : UInt8} {v : ℕ}

theorem shortEscape_mem (h : shortEscape e = some c) :
    e ∈ ['"', '\\', '/', 'b', 'f', 'n', 'r', 't'].map chr := by
  rw [shortEscape] at h
  split_ifs at h with h₁ h₂ h₃ h₄ h₅ h₆ h₇ h₈ <;> subst e <;> decide

theorem escape_put (h : escape t = .put c u) : ∃ e, t = e :: u ∧ shortEscape e = some c := by
  cases t with
  | nil => cases h
  | cons e t =>
    rw [escape] at h
    split at h
    · rename_i b hb
      cases h
      exact ⟨e, rfl, hb⟩
    · split at h
      · split at h <;> cases h
      · cases h

theorem escape_append (h : escape t = .append v u) :
    ∃ w, t = chr 'u' :: w ∧ 4 ≤ w.length ∧ u = w.drop 4 := by
  cases t with
  | nil => cases h
  | cons e t =>
    rw [escape] at h
    split at h
    · cases h
    · split at h
      · rename_i hu
        split at h
        · cases h
        · cases h
          exact ⟨t, by rw [hu.1], hu.2, rfl⟩
      · cases h

theorem escape_ne_stop (t : List UInt8) : escape t ≠ .stop := by
  intro h
  cases t with
  | nil => cases h
  | cons e t =>
    rw [escape] at h
    split at h
    · cases h
    · split at h
      · split at h <;> cases h
      · cases h

theorem step_stop (h : step t = .stop) : t = [] := by
  cases t with
  | nil => rfl
  | cons c t =>
    rw [step] at h
    split at h
    · exact absurd h (escape_ne_stop t)
    · cases h

theorem step_put (h : step t = .put c u) : t = c :: u ∧ c ≠ chr '\\' ∨
    ∃ e, t = chr '\\' :: e :: u ∧ shortEscape e = some c := by
  cases t with
  | nil => cases h
  | cons d t =>
    rw [step] at h
    split at h
    · rename_i hd
      obtain ⟨e, rfl, he⟩ := escape_put h
      exact .inr ⟨e, by rw [hd], he⟩
    · rename_i hd
      cases h
      exact .inl ⟨rfl, hd⟩

theorem step_field (h : step t = .append v u) :
    ∃ w, t = chr '\\' :: chr 'u' :: w ∧ 4 ≤ w.length ∧ u = w.drop 4 := by
  cases t with
  | nil => cases h
  | cons d t =>
    rw [step] at h
    split at h
    · rename_i hd
      obtain ⟨w, rfl, hw⟩ := escape_append h
      exact ⟨w, by rw [hd], hw⟩
    · cases h

theorem exists_str (h : Stored t) (hflaw : ¬ Flawed t) : ∃ u : Str, t = u.body := by
  induction h with
  | stop hstep => exact ⟨[], step_stop hstep⟩
  | @put t c u hstep _ ih =>
    obtain ⟨us, rfl⟩ := ih fun h => hflaw (.next (leaves_put hstep) h)
    rcases step_put hstep with ⟨rfl, hc⟩ | ⟨e, rfl, he⟩
    · have hcontrol : 0x20 ≤ c := UInt8.not_lt.mp fun hlt => hflaw (.here (.control hlt))
      have hquote : c ≠ chr '"' := fun heq => hflaw (.here (heq ▸ .quote))
      exact ⟨.plain c ⟨hcontrol, hquote, hc⟩ :: us, rfl⟩
    · exact ⟨.short e (shortEscape_mem he) :: us, rfl⟩
  | @append t v u hstep _ _ ih =>
    obtain ⟨us, hus⟩ := ih fun h => hflaw (.next (leaves_append hstep) h)
    obtain ⟨w, rfl, hlen, rfl⟩ := step_field hstep
    have hdigits : ∀ d ∈ w.take 4, isxdigit d = true :=
      not_not.mp fun h => hflaw (.here (.field h))
    match w, hlen with
    | d₃ :: d₂ :: d₁ :: d₀ :: w, _ =>
      refine ⟨.unicode ⟨d₃, hdigits d₃ ?_⟩ ⟨d₂, hdigits d₂ ?_⟩ ⟨d₁, hdigits d₁ ?_⟩
        ⟨d₀, hdigits d₀ ?_⟩ :: us, ?_⟩
      · simp
      · simp
      · simp
      · simp
      · exact congrArg (fun l => chr '\\' :: chr 'u' :: d₃ :: d₂ :: d₁ :: d₀ :: l) hus

theorem step_unit (x : StrUnit) (t : List UInt8) : ¬ Flaw (x.text ++ t) ∧
    ((∃ c, step (x.text ++ t) = .put c t) ∨
      ∃ v < 0x110000, step (x.text ++ t) = .append v t) := by
  cases x with
  | plain c h =>
    obtain ⟨hcontrol, hquote, hbackslash⟩ := h
    refine ⟨fun hflaw => ?_, .inl ⟨c, if_neg hbackslash⟩⟩
    cases hflaw with
    | control hlt => exact absurd hcontrol (UInt8.not_le.mpr hlt)
    | quote => exact hquote rfl
    | field => exact hbackslash rfl
  | short c h =>
    have hstep : ∃ b, shortEscape c = some b ∧ c ≠ chr 'u' := by
      simp only [List.map_cons, List.map_nil, List.mem_cons, List.not_mem_nil, or_false] at h
      rcases h with rfl | rfl | rfl | rfl | rfl | rfl | rfl | rfl <;>
        exact ⟨_, rfl, by decide⟩
    obtain ⟨b, hb, hu⟩ := hstep
    refine ⟨fun hflaw => ?_, .inl ⟨b, ?_⟩⟩
    · have hlist : StrUnit.text (.short c h) ++ t = chr '\\' :: c :: t := rfl
      rw [hlist] at hflaw
      cases hflaw with
      | control hlt => exact absurd hlt (by decide)
      | field => exact hu rfl
    · change step (chr '\\' :: c :: t) = _
      rw [step, if_pos rfl, escape]
      simp only [hb]
  | unicode d₃ d₂ d₁ d₀ =>
    have hdigits := (Hex.mk d₃ d₂ d₁ d₀).mem_digits
    have hlt := (Hex.mk d₃ d₂ d₁ d₀).value_lt
    refine ⟨fun hflaw => ?_, .inr ⟨_, by omega, step_escaped ⟨d₃, d₂, d₁, d₀⟩ t⟩⟩
    change Flaw (chr '\\' :: chr 'u' :: ((Hex.mk d₃ d₂ d₁ d₀).digits ++ t)) at hflaw
    cases hflaw with
    | control hlt => exact absurd hlt (by decide)
    | field h => exact h hdigits

/-- In front of a text that goes on with a unit, nothing is amiss that is not in the rest. -/
theorem unit_append (x : StrUnit) (t : List UInt8) : (Flawed (x.text ++ t) → Flawed t) ∧
    (StoresNull (x.text ++ t) → StoresNull t) := by
  obtain ⟨hflaw, hstep⟩ := step_unit x t
  constructor
  · intro h
    cases h with
    | here h => exact absurd h hflaw
    | next hleaves h =>
      rcases hstep with ⟨c, hstep⟩ | ⟨v, -, hstep⟩ <;>
      · rw [hstep] at hleaves
        cases hleaves
        exact h
  · intro h
    rcases hstep with ⟨c, hstep⟩ | ⟨v, hv, hstep⟩
    · cases h with
      | put hput h =>
        cases hstep.symm.trans hput
        exact h
      | here happend | append happend => cases hstep.symm.trans happend
    · cases h with
      | here happend hle =>
        cases hstep.symm.trans happend
        exact absurd hv (Nat.not_lt_of_le hle)
      | put hput => cases hstep.symm.trans hput
      | append happend _ h =>
        cases hstep.symm.trans happend
        exact h

/-- The body of a literal has no flaw, and nothing is stored through a null pointer. -/
theorem body_flawless (u : Str) : ¬ Flawed u.body ∧ ¬ StoresNull u.body := by
  induction u with
  | nil =>
    constructor <;> intro h
    · cases h with
      | here h => cases h
      | next h => cases h
    · cases h with
      | here h | put h | append h => cases h
  | cons x u ih =>
    have happend := unit_append x (Str.body u)
    exact ⟨fun h => ih.1 (happend.1 h), fun h => ih.2 (happend.2 h)⟩

theorem returned_none {d : List UInt8} {x : Run (Option ℕ)} :
    returned d x = .ok none ↔ x.result = .ok none := by
  rw [returned]
  split
  · rename_i o ho
    rw [ho]
    cases o <;> simp
  · rename_i hnull
    rw [hnull]
    simp
  · rename_i e he
    rw [he]
    simp

/-- In quotes, a text is rejected unless all of it is stored or something is stored through a null
pointer. -/
theorem rejected_iff (t : List UInt8) :
    Json.decodeUtf8 (quoted t) 0 (quoted t).length = .ok none ↔ ¬ Stored t ∧ ¬ StoresNull t := by
  obtain ⟨hbehind, hdecode⟩ := decodeUtf8_quoted t
  have hlt : t.length < t.length + 2 := by omega
  rw [jsonDecodeUtf8_eq, returned_none, hdecode]
  constructor
  · refine fun hnone => ⟨fun h => ?_, fun h => ?_⟩
    · obtain ⟨q, hq⟩ := h.result hbehind hlt 0
      cases hnone.symm.trans hq
    · cases hnone.symm.trans (h.result hbehind hlt 0)
  · rintro ⟨hstored, hnull⟩
    exact ((stored_cases hbehind hlt 0).resolve_left hstored).resolve_left hnull

/-- A sequence of bytes that is no literal is rejected, if and only if it is not a text in quotes
that is stored up to the end in spite of a flaw, or in which something is stored through a null
pointer. -/
theorem rejects_iff (text : List UInt8) :
    (¬ Literal text → Json.decodeUtf8 text 0 text.length = .ok none) ↔
      ∀ t, text = quoted t → ¬ (Stored t ∧ Flawed t) ∧ ¬ StoresNull t := by
  by_cases hquoted : ∃ t, text = quoted t
  · obtain ⟨t, rfl⟩ := hquoted
    have hinj {t' : List UInt8} (h : quoted t = quoted t') : t = t' :=
      List.append_cancel_right (List.cons.inj h).2
    rw [rejected_iff]
    constructor
    · rintro h t' ht'
      obtain rfl := hinj ht'
      refine ⟨fun hflawed => ?_, fun hnull => ?_⟩
      · have hliteral : ¬ Literal (quoted t) := by
          rintro ⟨u, hu⟩
          exact (body_flawless u).1 (hinj hu ▸ hflawed.2)
        exact (h hliteral).1 hflawed.1
      · have hliteral : ¬ Literal (quoted t) := by
          rintro ⟨u, hu⟩
          exact (body_flawless u).2 (hinj hu ▸ hnull)
        exact (h hliteral).2 hnull
    · intro h hliteral
      obtain ⟨hflawed, hnull⟩ := h t rfl
      refine ⟨fun hstored => ?_, hnull⟩
      obtain ⟨u, rfl⟩ := exists_str hstored fun hflaw => hflawed ⟨hstored, hflaw⟩
      exact hliteral ⟨u, rfl⟩
  · refine iff_of_true (fun _ => ?_) fun t ht => absurd ⟨t, ht⟩ hquoted
    rw [jsonDecodeUtf8_eq, decodeUtf8_unquoted fun t ht => hquoted ⟨t, ht⟩]
    rfl

/-- The escape `\u 41` with two blanks, a line feed and a quote, none of which is rejected. -/
theorem not_rejects_blanks :
    ¬ Literal (quoted ([chr '\\', chr 'u', 0x20, 0x20, chr '4', chr '1', 0x0A, chr '"'])) ∧
    Json.decodeUtf8
        (quoted ([chr '\\', chr 'u', 0x20, 0x20, chr '4', chr '1', 0x0A, chr '"'])) 0 10 =
      .ok (some [chr 'A', 0x0A, chr '"']) := by
  refine ⟨?_, rfl⟩
  rintro ⟨u, hu⟩
  have hbody := List.append_cancel_right (List.cons.inj hu).2
  exact (body_flawless u).1 (hbody ▸ .here (.field (by decide)))

end Libuo.JsonDecodeRejects
