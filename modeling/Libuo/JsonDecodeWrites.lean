import Libuo.JsonDecode
import Mathlib.Order.Nat

/-!
# What the decoder stores

Each step stores fewer bytes than it reads, so that a destination of the length of the source, less
the quotes, is enough. But `sscanf` reads a negative number from a field with a minus sign. It is no
code point, the destination becomes a null pointer, and whatever is stored next is stored through
it.
-/

namespace Libuo.JsonDecodeWrites
open CStrings JsonDecode
open Json hiding putc utf8Append decodeLoop decodeUtf8

/-- What is next is stored, when escapes without a code point are passed. -/
inductive Stores : List UInt8 → Prop
  | put {t c u} : step t = .put c u → Stores t
  | append {t v u} : step t = .append v u → v < 0x110000 → Stores t
  | skip {t v u} : step t = .append v u → 0x110000 ≤ v → Stores u → Stores t

/-- An escape without a code point is arrived at, and something is stored behind it. -/
inductive StoresNull : List UInt8 → Prop
  | here {t v u} : step t = .append v u → 0x110000 ≤ v → Stores u → StoresNull t
  | put {t c u} : step t = .put c u → StoresNull u → StoresNull t
  | append {t v u} : step t = .append v u → v < 0x110000 → StoresNull u → StoresNull t

/-- All is stored up to the end of the text. -/
inductive Stored : List UInt8 → Prop
  | stop {t} : step t = .stop → Stored t
  | put {t c u} : step t = .put c u → Stored u → Stored t
  | append {t v u} : step t = .append v u → v < 0x110000 → Stored u → Stored t

variable {s t u : List UInt8} {e n p v : ℕ} {c : UInt8} {dst : Option ℕ}

/-- Stores between two offsets, no more than the bytes there. -/
def Within (p len : ℕ) (stores : List (ℕ × UInt8)) : Prop :=
  stores.length ≤ len ∧ ∀ w ∈ stores, p ≤ w.1 ∧ w.1 < p + len

variable {k len len' : ℕ} {w w' : List (ℕ × UInt8)}

theorem Within.mono (h : Within p len w) (hle : len ≤ len') : Within p len' w :=
  ⟨h.1.trans hle, fun x hx => ⟨(h.2 x hx).1, (h.2 x hx).2.trans_le (Nat.add_le_add_left hle p)⟩⟩

theorem Within.append (h : Within p len w) (h' : Within (p + len) len' w') :
    Within p (len + len') (w ++ w') := by
  refine ⟨?_, fun x hx => ?_⟩
  · rw [List.length_append]
    exact Nat.add_le_add h.1 h'.1
  · rcases List.mem_append.mp hx with hx | hx
    · exact (h.mono (Nat.le_add_right _ _)).2 x hx
    · have := h'.2 x hx
      omega

theorem within_nil (p len : ℕ) : Within p len [] := ⟨Nat.zero_le _, nofun⟩

theorem within_storesAt (p : ℕ) (bs : List UInt8) : Within p bs.length (storesAt p bs) := by
  induction bs generalizing p with
  | nil => exact within_nil _ _
  | cons c bs ih =>
    have hhead : Within p 1 [(p, c)] :=
      ⟨Nat.le_refl _, fun x hx => List.mem_singleton.mp hx ▸ ⟨Nat.le_refl _, Nat.lt_succ_self _⟩⟩
    exact (hhead.append (ih (p + 1))).mono (Nat.add_comm _ _).le

theorem length_utf8Bytes {bs : List UInt8} (h : utf8Bytes v = some bs) : bs.length ≤ 4 := by
  rw [utf8Bytes] at h
  split_ifs at h <;> rw [← Option.some.inj h] <;> simp only [List.length_cons, List.length_nil] <;>
    omega

theorem utf8Bytes_none : utf8Bytes v = none ↔ 0x110000 ≤ v := by
  rw [utf8Bytes]
  split_ifs with h₁ h₂ h₃ h₄ <;> simp <;> omega

/-- A `\u` escape has six bytes. -/
theorem step_append (h : step t = .append v u) : u.length + 6 = t.length := by
  cases t with
  | nil => cases h
  | cons c t =>
    rw [step] at h
    split at h
    · cases t with
      | nil => cases h
      | cons e t =>
        rw [escape] at h
        split at h
        · cases h
        · split at h
          · rename_i hu
            split at h
            · cases h
            · cases h
              have := hu.2
              simp only [List.length_drop, List.length_cons]
              omega
          · cases h
    · cases h

theorem decodeLoop_null_stores (s : List UInt8) (e n p : ℕ) :
    (decodeLoop s e n p none).stores = [] := by
  induction n generalizing p with
  | zero => rfl
  | succ n ih =>
    rw [decodeLoop_succ]
    cases readNext s e p with
    | error e => rfl
    | ok next =>
      cases next with
      | stop => rfl
      | reject => rfl
      | put c q => rfl
      | append v q =>
        rw [read_ok_bind, turn, utf8Append_none]
        cases utf8Bytes v with
        | some bs => rfl
        | none => exact ih q

/-- What is stored from a place on is no more than what is left to read. -/
theorem decodeLoop_within (h : Behind s e t) (n k : ℕ) :
    Within k t.length (decodeLoop s e n (e - t.length) (some k)).stores := by
  induction n generalizing t k with
  | zero => exact within_nil _ _
  | succ n ih =>
    rw [decodeLoop_step h]
    cases hstep : step t with
    | stop => exact within_nil _ _
    | reject => exact within_nil _ _
    | put c u =>
      obtain ⟨hu, hlt⟩ := h.next (leaves_put hstep) (Nat.lt_succ_self _)
      have hbyte := (within_storesAt k [c]).append (ih hu (k + 1))
      exact hbyte.mono (by rw [List.length_singleton]; omega)
    | append v u =>
      obtain ⟨hu, -⟩ := h.next (leaves_append hstep) (Nat.lt_succ_self _)
      have hlen := step_append hstep
      rw [Next.place, turn, utf8Append_some]
      cases hbytes : utf8Bytes v with
      | none =>
        have hnull := decodeLoop_null_stores s e n (e - u.length)
        change Within k t.length ([] ++ (decodeLoop s e n (e - u.length) none).stores)
        rw [hnull]
        exact within_nil _ _
      | some bs =>
        have hbs := length_utf8Bytes hbytes
        exact ((within_storesAt k bs).append (ih hu (k + bs.length))).mono
          (by omega)

theorem utf8Bytes_some (h : v < 0x110000) : ∃ bs, utf8Bytes v = some bs := by
  cases hbytes : utf8Bytes v with
  | none => exact absurd (utf8Bytes_none.mp hbytes) (Nat.not_le_of_lt h)
  | some bs => exact ⟨bs, rfl⟩

variable {loop : ℕ → Option ℕ → Run (Option ℕ)}

theorem turn_append (hv : v < 0x110000) (k p : ℕ) :
    ∃ k', (turn loop (some k) (.append v p)).result = (loop p (some k')).result := by
  obtain ⟨bs, hbs⟩ := utf8Bytes_some hv
  rw [turn, utf8Append_some, hbs]
  exact ⟨_, rfl⟩

theorem turn_append_null (hv : v < 0x110000) (p : ℕ) :
    (turn loop none (.append v p)).result = .error .nullPointer := by
  obtain ⟨bs, hbs⟩ := utf8Bytes_some hv
  rw [turn, utf8Append_none, hbs]
  rfl

theorem turn_negative (hv : 0x110000 ≤ v) (dst : Option ℕ) (p : ℕ) :
    turn loop dst (.append v p) = loop p none := by
  have hnone := utf8Bytes_none.mpr hv
  cases dst with
  | none =>
    rw [turn, utf8Append_none, hnone]
    rfl
  | some k =>
    rw [turn, utf8Append_some, hnone]
    rfl

theorem Stores.result (h : Stores t) (hs : Behind s e t) (hn : t.length < n) :
    (decodeLoop s e n (e - t.length) none).result = .error .nullPointer := by
  induction h generalizing n with
  | put hstep =>
    obtain ⟨n, rfl⟩ := Nat.exists_eq_add_one_of_ne_zero (Nat.ne_zero_of_lt hn)
    rw [decodeLoop_step hs, hstep]
    rfl
  | append hstep hv =>
    obtain ⟨n, rfl⟩ := Nat.exists_eq_add_one_of_ne_zero (Nat.ne_zero_of_lt hn)
    rw [decodeLoop_step hs, hstep, Next.place, turn_append_null hv]
  | @skip t v u hstep hv _ ih =>
    obtain ⟨n, rfl⟩ := Nat.exists_eq_add_one_of_ne_zero (Nat.ne_zero_of_lt hn)
    obtain ⟨hu, hlt⟩ := hs.next (leaves_append hstep) hn
    rw [decodeLoop_step hs, hstep, Next.place, turn_negative hv]
    exact ih hu hlt

theorem stores_cases (hs : Behind s e t) (hn : t.length < n) :
    Stores t ∨ (decodeLoop s e n (e - t.length) none).result = .ok none := by
  induction n generalizing t with
  | zero => exact absurd hn (Nat.not_lt_zero _)
  | succ n ih =>
    rw [decodeLoop_step hs]
    cases hstep : step t with
    | stop => exact .inr rfl
    | reject => exact .inr rfl
    | put c u => exact .inl (.put hstep)
    | append v u =>
      rcases Nat.lt_or_ge v 0x110000 with hv | hv
      · exact .inl (.append hstep hv)
      · obtain ⟨hu, hlt⟩ := hs.next (leaves_append hstep) hn
        rw [Next.place, turn_negative hv]
        exact (ih hu hlt).imp_left (.skip hstep hv)

theorem StoresNull.result (h : StoresNull t) (hs : Behind s e t) (hn : t.length < n) (k : ℕ) :
    (decodeLoop s e n (e - t.length) (some k)).result = .error .nullPointer := by
  induction h generalizing n k with
  | @here t v u hstep hv hstores =>
    obtain ⟨n, rfl⟩ := Nat.exists_eq_add_one_of_ne_zero (Nat.ne_zero_of_lt hn)
    obtain ⟨hu, hlt⟩ := hs.next (leaves_append hstep) hn
    rw [decodeLoop_step hs, hstep, Next.place, turn_negative hv]
    exact hstores.result hu hlt
  | @put t c u hstep _ ih =>
    obtain ⟨n, rfl⟩ := Nat.exists_eq_add_one_of_ne_zero (Nat.ne_zero_of_lt hn)
    obtain ⟨hu, hlt⟩ := hs.next (leaves_put hstep) hn
    rw [decodeLoop_step hs, hstep]
    exact ih hu hlt (k + 1)
  | @append t v u hstep hv _ ih =>
    obtain ⟨n, rfl⟩ := Nat.exists_eq_add_one_of_ne_zero (Nat.ne_zero_of_lt hn)
    obtain ⟨hu, hlt⟩ := hs.next (leaves_append hstep) hn
    obtain ⟨k', hk'⟩ := @turn_append _ (decodeLoop s e n) hv k (e - u.length)
    rw [decodeLoop_step hs, hstep, Next.place, hk']
    exact ih hu hlt k'

theorem Stored.result (h : Stored t) (hs : Behind s e t) (hn : t.length < n) (k : ℕ) :
    ∃ q, (decodeLoop s e n (e - t.length) (some k)).result = .ok (some q) := by
  induction h generalizing n k with
  | stop hstep =>
    obtain ⟨n, rfl⟩ := Nat.exists_eq_add_one_of_ne_zero (Nat.ne_zero_of_lt hn)
    rw [decodeLoop_step hs, hstep]
    exact ⟨k, rfl⟩
  | @put t c u hstep _ ih =>
    obtain ⟨n, rfl⟩ := Nat.exists_eq_add_one_of_ne_zero (Nat.ne_zero_of_lt hn)
    obtain ⟨hu, hlt⟩ := hs.next (leaves_put hstep) hn
    rw [decodeLoop_step hs, hstep]
    exact ih hu hlt (k + 1)
  | @append t v u hstep hv _ ih =>
    obtain ⟨n, rfl⟩ := Nat.exists_eq_add_one_of_ne_zero (Nat.ne_zero_of_lt hn)
    obtain ⟨hu, hlt⟩ := hs.next (leaves_append hstep) hn
    obtain ⟨k', hk'⟩ := @turn_append _ (decodeLoop s e n) hv k (e - u.length)
    rw [decodeLoop_step hs, hstep, Next.place, hk']
    exact ih hu hlt k'

theorem stored_cases (hs : Behind s e t) (hn : t.length < n) (k : ℕ) : Stored t ∨ StoresNull t ∨
    (decodeLoop s e n (e - t.length) (some k)).result = .ok none := by
  induction n generalizing t k with
  | zero => exact absurd hn (Nat.not_lt_zero _)
  | succ n ih =>
    rw [decodeLoop_step hs]
    cases hstep : step t with
    | stop => exact .inl (.stop hstep)
    | reject => exact .inr (.inr rfl)
    | put c u =>
      obtain ⟨hu, hlt⟩ := hs.next (leaves_put hstep) hn
      exact (ih hu hlt (k + 1)).imp
        (.put hstep) (.imp_left (.put hstep))
    | append v u =>
      obtain ⟨hu, hlt⟩ := hs.next (leaves_append hstep) hn
      rcases Nat.lt_or_ge v 0x110000 with hv | hv
      · obtain ⟨k', hk'⟩ := @turn_append _ (decodeLoop s e n) hv k (e - u.length)
        rw [Next.place, hk']
        exact (ih hu hlt k').imp
          (.append hstep hv) (.imp_left (.append hstep hv))
      · rw [Next.place, turn_negative hv]
        exact .inr ((stores_cases hu hlt).imp_left (.here hstep hv))

theorem storesAt_append (p : ℕ) (a b : List UInt8) :
    storesAt p (a ++ b) = storesAt p a ++ storesAt (p + a.length) b := by
  induction a generalizing p with
  | nil => rfl
  | cons c a ih =>
    have hlen : p + (c :: a).length = p + 1 + a.length := by
      rw [List.length_cons]
      omega
    rw [List.cons_append, storesAt, ih, hlen]
    rfl

theorem decodeLoop_null_result (s : List UInt8) (e n p q : ℕ) :
    (decodeLoop s e n p none).result ≠ .ok (some q) := by
  intro h
  induction n generalizing p with
  | zero => cases h
  | succ n ih =>
    rw [decodeLoop_succ] at h
    cases hnext : readNext s e p with
    | error e =>
      rw [hnext] at h
      cases h
    | ok next =>
      rw [hnext, read_ok_bind] at h
      cases next with
      | stop => cases h
      | reject => cases h
      | put c r => cases h
      | append v r =>
        rw [turn, utf8Append_none] at h
        cases hbytes : utf8Bytes v with
        | some bs =>
          rw [hbytes] at h
          cases h
        | none =>
          rw [hbytes] at h
          exact ih r h

/-- When all is stored, then one byte behind the other, up to the place that is returned. -/
theorem decodeLoop_storesAt (s : List UInt8) (e n p k : ℕ) {q : ℕ}
    (h : (decodeLoop s e n p (some k)).result = .ok (some q)) :
    ∃ bs, decodeLoop s e n p (some k) = ⟨storesAt k bs, .ok (some (k + bs.length))⟩ := by
  induction n generalizing p k with
  | zero => cases h
  | succ n ih =>
    rw [decodeLoop_succ] at h ⊢
    cases hnext : readNext s e p with
    | error e =>
      rw [hnext] at h
      cases h
    | ok next =>
      rw [hnext, read_ok_bind] at h
      rw [read_ok_bind]
      have hfurther (bs : List UInt8) (r : ℕ)
          (h : (decodeLoop s e n r (some (k + bs.length))).result = .ok (some q)) :
          ∃ bs', ((⟨storesAt k bs, .ok (some (k + bs.length))⟩ : Run (Option ℕ)) >>=
            decodeLoop s e n r) = ⟨storesAt k bs', .ok (some (k + bs'.length))⟩ := by
        obtain ⟨bs', hrun⟩ := ih r (k + bs.length) h
        refine ⟨bs ++ bs', ?_⟩
        change Run.mk (storesAt k bs ++ (decodeLoop s e n r (some (k + bs.length))).stores)
          (decodeLoop s e n r (some (k + bs.length))).result = _
        rw [hrun, storesAt_append, List.length_append, Nat.add_assoc]
      cases next with
      | stop => exact ⟨[], rfl⟩
      | reject => cases h
      | put c r => exact hfurther [c] r h
      | append v r =>
        rw [turn, utf8Append_some] at h ⊢
        cases hbytes : utf8Bytes v with
        | some bs =>
          rw [hbytes] at h
          exact hfurther bs r h
        | none =>
          rw [hbytes] at h
          change (decodeLoop s e n r none).result = .ok (some q) at h
          exact absurd h (decodeLoop_null_result s e n r q)

/-- A string that is returned has been stored from the start of the destination on. -/
theorem decodeUtf8_storesAt {src srcLen : ℕ} (h : Json.decodeUtf8 s src srcLen = .ok (some u)) :
    decodeUtf8 s src srcLen = ⟨storesAt 0 u, .ok (some u.length)⟩ := by
  rw [jsonDecodeUtf8_eq] at h
  obtain ⟨q, hq⟩ : ∃ q, (decodeUtf8 s src srcLen).result = .ok (some q) := by
    rw [returned] at h
    split at h
    · obtain ⟨q, rfl, -⟩ := Option.map_eq_some_iff.mp (Except.ok.inj h)
      exact ⟨q, by assumption⟩
    · cases h
    · cases h
  obtain ⟨bs, hrun⟩ : ∃ bs, decodeUtf8 s src srcLen = ⟨storesAt 0 bs, .ok (some bs.length)⟩ := by
    rw [decodeUtf8] at hq ⊢
    split_ifs at hq ⊢
    · cases hq
    · cases hc : load s src with
      | error e =>
        rw [hc] at hq
        cases hq
      | ok c =>
        rw [hc] at hq
        simp only [read_ok_bind] at hq ⊢
        split_ifs at hq ⊢
        · cases hq
        · cases hd : load s (src + srcLen - 1) with
          | error e =>
            rw [hd] at hq
            cases hq
          | ok d =>
            rw [hd] at hq
            simp only [read_ok_bind] at hq ⊢
            split_ifs at hq ⊢
            · cases hq
            · obtain ⟨bs, hrun⟩ := decodeLoop_storesAt s _ srcLen (src + 1) 0 hq
              exact ⟨bs, by rw [hrun, Nat.zero_add]⟩
  rw [hrun, returned] at h
  have hbs : bs = u := by simpa [map_storesAt] using h
  rw [hrun, hbs]

/-- The decoder ends without a store through a null pointer, and no more is stored than the source
is long without its quotes, all of it inside of a destination of that length. -/
def Safe (text : List UInt8) : Prop :=
  (∃ o, (decodeUtf8 text 0 text.length).result = .ok o) ∧
    Within 0 (text.length - 2) (decodeUtf8 text 0 text.length).stores

/-- However it ends, the decoder stores no more than that. -/
theorem decodeUtf8_within (text : List UInt8) :
    Within 0 (text.length - 2) (decodeUtf8 text 0 text.length).stores := by
  by_cases h : ∃ t, text = quoted t
  · obtain ⟨t, rfl⟩ := h
    obtain ⟨hbehind, hdecode⟩ := decodeUtf8_quoted t
    have hlen : (quoted t).length - 2 = t.length := by simp [quoted]
    rw [hdecode, hlen]
    exact decodeLoop_within hbehind _ 0
  · rw [decodeUtf8_unquoted fun t ht => h ⟨t, ht⟩]
    exact within_nil _ _

/-- The decoder is safe if and only if nothing is stored behind an escape whose field is a negative
number. -/
theorem decodeUtf8_safe_iff (text : List UInt8) :
    Safe text ↔ ∀ t, text = quoted t → ¬ StoresNull t := by
  rw [Safe, and_iff_left (decodeUtf8_within text)]
  constructor
  · rintro ⟨o, ho⟩ t rfl hnull
    obtain ⟨hbehind, hdecode⟩ := decodeUtf8_quoted t
    rw [hdecode, hnull.result hbehind (by omega)] at ho
    cases ho
  · intro h
    by_cases hquoted : ∃ t, text = quoted t
    · obtain ⟨t, rfl⟩ := hquoted
      obtain ⟨hbehind, hdecode⟩ := decodeUtf8_quoted t
      have hlt : t.length < t.length + 2 := by omega
      rw [hdecode]
      rcases stored_cases hbehind hlt 0 with hstored | hnull | hnone
      · obtain ⟨q, hq⟩ := hstored.result hbehind hlt 0
        exact ⟨some q, hq⟩
      · exact absurd hnull (h t rfl)
      · exact ⟨none, hnone⟩
    · rw [decodeUtf8_unquoted fun t ht => hquoted ⟨t, ht⟩]
      exact ⟨none, rfl⟩

/-- The literal `"\u-001a"`: the field is `-001`, and the letter behind it is stored through a null
pointer. -/
theorem not_safe_negative :
    ¬ Safe (quoted (['\\', 'u', '-', '0', '0', '1', 'a'].map chr)) := by
  rintro ⟨⟨o, ho⟩, -⟩
  have hnull : (decodeUtf8 (quoted (['\\', 'u', '-', '0', '0', '1', 'a'].map chr)) 0 9).result =
      .error .nullPointer := rfl
  cases hnull.symm.trans ho

end Libuo.JsonDecodeWrites
