import Libuo.HashTableMap
import Mathlib.Data.Nat.Log

/-!
# The capacity of a hash table

A table grows when it is half full, and should shrink again when an eighth of it is left. The
test for that compares a truth value with the minimal capacity, so that the capacity is that of
the largest number of keys that have been present at once.
-/

namespace Libuo.HashTable
open OpenAddressing OrderedMap Util

variable {K : Type} {H : KeyType K} {t t' : Hashtbl K} {ns : List ℕ} {k : K} {v : UInt64}

/-- The table is small, or more than an eighth of it is in use. -/
def Compact (t : Hashtbl K) : Prop := t.capacity ≤ 64 ∨ t.capacity < 8 * t.count

/-- The largest number of keys present at once, from the given entries on. -/
def peak (H : KeyType K) : List (K × UInt64) → List (Op K) → ℕ
  | m, [] => m.length
  | m, op :: ops => max m.length (peak H (op.effect H m) ops)

theorem length_le_peak (m : List (K × UInt64)) (ops : List (Op K)) : m.length ≤ peak H m ops := by
  cases ops with
  | nil => exact Nat.le_refl _
  | cons op ops => exact Nat.le_max_left _ _

theorem ok_of_bind {ε α β : Type} {x : Except ε α} {f : α → Except ε β} {b : β}
    (h : (x >>= f) = .ok b) : ∃ a, x = .ok a ∧ f a = .ok b := by
  cases x with
  | error e => cases h
  | ok a => exact ⟨a, rfl, h⟩

theorem resize_capacity {capacity : ℕ} (h : resize H t capacity = .ok t') :
    t'.capacity = capacity ∧ t'.count = t.count := by
  rw [resize] at h
  obtain ⟨newLinks, -, h⟩ := ok_of_bind h
  obtain ⟨old, -, h⟩ := ok_of_bind h
  obtain ⟨⟨links, ring⟩, -, h⟩ := ok_of_bind h
  cases h
  exact ⟨rfl, rfl⟩

theorem set_capacity (h : set H t (some k) v = .ok t') : t'.capacity = t.capacity ∨
    t'.capacity = t.capacity <<< 1 % 2 ^ 64 ∧ t'.count = t.capacity >>> 1 := by
  rw [set] at h
  obtain ⟨link, -, h⟩ := ok_of_bind h
  by_cases hkey : (t.links link).key.isSome
  · rw [if_pos hkey] at h
    cases h
    exact .inl rfl
  · rw [if_neg hkey] at h
    obtain ⟨ring, -, h⟩ := ok_of_bind h
    by_cases hfull : (t.count + 1) % 2 ^ 64 = t.capacity >>> 1
    · rw [if_pos hfull] at h
      obtain ⟨t₁, hresize, h⟩ := ok_of_bind h
      obtain ⟨hcapacity, hcount⟩ := resize_capacity hresize
      cases h
      exact .inr ⟨hcapacity, hcount.trans hfull⟩
    · rw [if_neg hfull] at h
      cases h
      exact .inl rfl

theorem sweep_capacity (h : sweep H t = .ok t') : t'.capacity = t.capacity := by
  rw [sweep] at h
  split at h
  · obtain ⟨t₁, hresize, h⟩ := ok_of_bind h
    cases h
    exact (resize_capacity hresize).1
  · cases h
    rfl

theorem remove_capacity (h : remove H t (some k) = .ok (v, t')) : t'.capacity = t.capacity := by
  rw [remove] at h
  obtain ⟨link, -, h⟩ := ok_of_bind h
  by_cases hkey : (t.links link).key.isNone
  · rw [if_pos hkey] at h
    cases h
    rfl
  · rw [if_neg hkey] at h
    obtain ⟨ring, -, h⟩ := ok_of_bind h
    obtain ⟨t₁, hsweep, h⟩ := ok_of_bind h
    rw [shrink_eq] at h
    cases h
    have hcapacity := sweep_capacity hsweep
    exact hcapacity

/-- A table that was created with a capacity has grown as far as `n` keys need. -/
structure Grown (created : ℕ) (t : Hashtbl K) (n : ℕ) : Prop where
  least : created ≤ t.capacity
  half : 2 * n < t.capacity
  needed : t.capacity = created ∨ t.capacity ≤ 4 * n

variable {created n : ℕ}

/-- The capacity stays while the table holds more keys. -/
theorem Grown.same (h : Grown created t n) (hcapacity : t'.capacity = t.capacity) {m : ℕ}
    (hhalf : 2 * m < t'.capacity) : Grown created t' (max n m) where
  least := hcapacity ▸ h.least
  half := by
    have := h.half
    omega
  needed := by
    have := h.needed
    omega

/-- The capacity is doubled when the table is half full. -/
theorem Grown.double (h : Grown created t n) (hcapacity : t'.capacity = 2 * t.capacity) {m : ℕ}
    (hfull : 2 * m = t.capacity) : Grown created t' (max n m) where
  least := by
    have := h.least
    omega
  half := by
    have := h.half
    omega
  needed := .inr (by omega)

theorem Inv.shifts (h : Inv H t ns) :
    t.capacity <<< 1 % 2 ^ 64 = 2 * t.capacity ∧ 2 * (t.capacity >>> 1) = t.capacity := by
  obtain ⟨e, he, hmin, -⟩ := h.exponent
  have hbytes := h.bytes
  have heven : t.capacity = 2 * 2 ^ (e - 1) := by
    rw [he, ← pow_succ', Nat.sub_add_cancel (by omega)]
  rw [Nat.shiftLeft_eq, Nat.shiftRight_eq_div_pow, pow_one]
  omega

theorem Grown.apply (h : Grown created t n) (hinv : Inv H t ns) {ns' : List ℕ}
    (hinv' : Inv H t' ns') {op : Op K} {value : Option UInt64}
    (hop : op.apply H t = .ok (value, t')) : Grown created t' (max n t'.count) := by
  have hhalf : 2 * t'.count < t'.capacity := hinv'.count ▸ hinv'.half
  cases op with
  | set k v =>
    obtain ⟨t₁, hset, hop⟩ := ok_of_bind hop
    cases hop
    rcases set_capacity hset with hsame | ⟨hdouble, hfull⟩
    · exact h.same hsame hhalf
    · obtain ⟨hshift, hback⟩ := hinv.shifts
      exact h.double (hdouble.trans hshift) (by omega)
  | get k =>
    obtain ⟨value', -, hop⟩ := ok_of_bind hop
    cases hop
    exact h.same rfl hhalf
  | remove k =>
    obtain ⟨⟨value', t₁⟩, hremove, hop⟩ := ok_of_bind hop
    cases hop
    exact h.same (remove_capacity hremove) hhalf

theorem Grown.runFrom {ops : List (Op K)} {values : List (Option UInt64)}
    (h : Grown created t n) (hinv : Inv H t ns) (hn : (entries t.links ns).length ≤ n)
    (hr : runFrom H t ops = .ok (values, t')) :
    ∃ ns', Inv H t' ns' ∧ t'.count = (ops.foldl (Op.effect H) (entries t.links ns)).length ∧
      Grown created t' (max n (peak H (entries t.links ns) ops)) := by
  induction ops generalizing t ns n values with
  | nil =>
    cases hr
    refine ⟨ns, hinv, ?_, ?_⟩
    · rw [List.foldl_nil, hinv.threaded.length_entries, hinv.count]
    · rwa [peak, Nat.max_eq_left hn]
  | cons op ops ih =>
    rw [HashTable.runFrom] at hr
    obtain ⟨⟨value, t₁⟩, hop, hr⟩ := ok_of_bind hr
    obtain ⟨⟨values', t₂⟩, hr', hr⟩ := ok_of_bind hr
    cases hr
    rcases op.apply_entries hinv with hfail | ⟨t₁', ns₁, hop', hinv₁, hentries⟩
    · rw [hop] at hfail
      cases hfail
    · rw [hop] at hop'
      obtain ⟨-, rfl⟩ := Prod.mk.inj (Except.ok.inj hop')
      have hcount : (entries t₁.links ns₁).length = t₁.count := by
        rw [hinv₁.threaded.length_entries, hinv₁.count]
      obtain ⟨ns', hinv', hlast, hgrown⟩ :=
        ih (h.apply hinv hinv₁ hop) hinv₁ (hcount ▸ Nat.le_max_right _ _) hr'
      refine ⟨ns', hinv', ?_, ?_⟩
      · rw [hlast, hentries, List.foldl_cons]
      · have hle : t₁.count ≤ peak H (entries t₁.links ns₁) ops :=
          hcount ▸ length_le_peak (entries t₁.links ns₁) ops
        rw [peak, ← hentries]
        rwa [Nat.max_assoc, Nat.max_eq_right hle, ← Nat.max_eq_left hn, Nat.max_assoc] at hgrown

theorem create_capacity {initialCapacity : ℕ} (h : initialCapacity ≤ 64)
    (hc : create initialCapacity = .ok t) : t.capacity ≤ 64 := by
  rw [create] at hc
  obtain ⟨links, -, hc⟩ := ok_of_bind hc
  cases hc
  change (if initialCapacity ≥ minCapacity then _ else _) ≤ 64
  split
  · rename_i hge
    have hpos : 0 < initialCapacity := Nat.lt_of_lt_of_le (by decide) hge
    have hsize : (initialCapacity - 1).size ≤ 6 := Nat.size_le.mpr (by omega)
    rw [(ceilPow2_eq hpos (by omega)).1]
    exact Nat.pow_le_pow_right (by decide) hsize
  · decide

/-- The capacity of a table that has outgrown its first one. -/
theorem Grown.capacity (h : Grown created t n) (hinv : Inv H t ns) (hcreated : created ≤ 64) :
    if n < 32 then t.capacity ≤ 64 else t.capacity = 4 * 2 ^ Nat.log 2 n ∧ 64 < t.capacity := by
  obtain ⟨e, he, hmin, -⟩ := hinv.exponent
  have hhalf := h.half
  split
  · rename_i hfew
    rcases h.needed with hsame | hle
    · omega
    · have hlt : 2 ^ e < 2 ^ 7 := by omega
      have hexp : e ≤ 6 := Nat.le_of_lt_succ ((Nat.pow_lt_pow_iff_right (by omega)).mp hlt)
      rw [he]
      exact Nat.pow_le_pow_right (by decide) hexp
  · rename_i hmany
    have hle : t.capacity ≤ 4 * n := by
      rcases h.needed with hsame | hle
      · omega
      · exact hle
    have hpow : 2 ^ e = 4 * 2 ^ (e - 2) := by
      rw [show (4 : ℕ) = 2 ^ 2 from rfl, ← pow_add]
      congr 1
      omega
    have hlog : Nat.log 2 n = e - 2 := by
      refine Nat.log_eq_of_pow_le_of_lt_pow (by omega) ?_
      rw [pow_succ]
      omega
    rw [hlog]
    omega

/-- A table is compact after a run if and only if there have never been as many as 32 keys at once,
or more than half of the power of two that the largest number of keys reaches are present. -/
theorem compact_iff {initialCapacity : ℕ} {ops : List (Op K)} {values : List (Option UInt64)}
    (h : initialCapacity ≤ 64) (hr : run H initialCapacity ops = .ok (values, t)) :
    Compact t ↔ peak H [] ops < 32 ∨
      2 ^ Nat.log 2 (peak H [] ops) < 2 * (ops.foldl (Op.effect H) []).length := by
  rw [run] at hr
  obtain ⟨t₀, hc, hr⟩ := ok_of_bind hr
  have hmax : initialCapacity ≤ 2 ^ 63 := h.trans (by decide)
  rcases create_spec (H := H) hmax with
    hfail | ⟨t₀', ns, hc', hinv, hentries⟩
  · rw [hc] at hfail
    cases hfail
  · rw [hc] at hc'
    obtain rfl := Except.ok.inj hc'
    have hgrown : Grown t₀.capacity t₀ 0 :=
      ⟨Nat.le_refl _, Nat.lt_of_lt_of_le (by decide) hinv.min, .inl rfl⟩
    obtain ⟨ns', hinv', hcount, hgrown'⟩ := hgrown.runFrom hinv (by rw [hentries]; rfl) hr
    rw [hentries, Nat.zero_max] at hgrown'
    rw [hentries] at hcount
    have hcapacity := hgrown'.capacity hinv' (create_capacity h hc)
    rw [Compact, hcount]
    split at hcapacity <;> omega

/-- Numbers with a hash under which small ones do not collide. -/
def spread : KeyType ℕ where
  toKeyEq := colliding.toKeyEq
  hash k := UInt64.ofNat k
  hash_eq h := congrArg UInt64.ofNat (Nat.eq_of_beq_eq_true h)

theorem of_sizes {x : Except Failure (List (Option UInt64) × Hashtbl K)} {capacity count : ℕ}
    (h : sizes x = some (capacity, count)) :
    ∃ values t, x = .ok (values, t) ∧ t.capacity = capacity ∧ t.count = count := by
  cases x with
  | error e => cases h
  | ok r =>
    obtain ⟨hcapacity, hcount⟩ := Prod.mk.inj (Option.some.inj h)
    exact ⟨r.1, r.2, rfl, hcapacity, hcount⟩

/-- Thirty-two keys are set, and ten of them removed. -/
def thinned : List (Op ℕ) :=
  (List.range 32).map (fun k => .set k ⟨1, by decide⟩) ++ (List.range 10).map .remove

theorem sizes_thinned : sizes (run spread 16 thinned) = some (128, 22) := by
  decide +kernel

/-- The table has been rebuilt three times, and more than an eighth of it is in use. -/
theorem compact_iff_thinned : peak spread [] thinned = 32 ∧ ∃ values t,
    run spread 16 thinned = .ok (values, t) ∧ t.capacity = 128 ∧ Compact t := by
  have hpeak : peak spread [] thinned = 32 := by decide +kernel
  obtain ⟨values, t, hr, hcapacity, -⟩ := of_sizes sizes_thinned
  refine ⟨hpeak, values, t, hr, hcapacity, (compact_iff (by decide) hr).mpr (.inr ?_)⟩
  decide +kernel

/-- Thirty-two keys are set, and half of them removed. -/
def emptied : List (Op ℕ) :=
  (List.range 32).map (fun k => .set k ⟨1, by decide⟩) ++ (List.range 16).map .remove

theorem sizes_emptied : sizes (run spread 16 emptied) = some (128, 16) := by
  decide +kernel

/-- Only an eighth of the table is left in use. -/
theorem not_compact_emptied : ∃ values t,
    run spread 16 emptied = .ok (values, t) ∧ ¬ Compact t := by
  obtain ⟨values, t, hr, hcapacity, hcount⟩ := of_sizes sizes_emptied
  refine ⟨values, t, hr, fun h => ?_⟩
  rw [Compact, hcapacity, hcount] at h
  omega

end Libuo.HashTable
