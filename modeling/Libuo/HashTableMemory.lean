import Libuo.HashTableCapacity

/-!
# Memory for hash tables

Only the array of links is allocated, so that memory runs out for no capacity below `2 ^ 59`.
A run that starts small enough asks for such a capacity only when it has `2 ^ 57` keys at once.
-/

namespace Libuo.HashTable
open LinkList OpenAddressing OrderedMap Util

variable {K : Type} {H : KeyType K} {t : Hashtbl K} {ns : List ℕ} {k : K} {v : UInt64}

theorem error_of_bind {ε α β : Type} {x : Except ε α} {f : α → Except ε β} {e : ε}
    (h : (x >>= f) = .error e) : x = .error e ∨ ∃ a, x = .ok a ∧ f a = .error e := by
  cases x with
  | error e' =>
    cases h
    exact .inl rfl
  | ok a => exact .inr ⟨a, rfl, h⟩

theorem orFault_ne_alloc {α : Type} (x : Option α) : orFault x ≠ .error .alloc := by
  cases x <;> simp [orFault]

theorem findLoop_ne_alloc {links : ℕ → Item K} {mask : ℕ} (fuel h : ℕ) :
    findLoop H links mask k fuel h ≠ .error .alloc := by
  induction fuel generalizing h with
  | zero => simp [findLoop]
  | succ fuel ih =>
    rw [findLoop]
    split
    · exact ih _
    · simp

theorem findLink_ne_alloc {links : ℕ → Item K} {capacity : ℕ} :
    findLink H links capacity k ≠ .error .alloc :=
  findLoop_ne_alloc capacity _

theorem resizeLoop_ne_alloc {old : Links Node} {oldLinks : ℕ → Item K} {capacity : ℕ} (count : ℕ)
    (node : Option Node) (new : (ℕ → Item K) × Links Node) :
    resizeLoop H old oldLinks capacity count node new ≠ .error .alloc := by
  induction count generalizing node new with
  | zero => simp [resizeLoop]
  | succ count ih =>
    obtain ⟨newLinks, ring⟩ := new
    rcases node with - | - | i
    · simp [resizeLoop]
    · simp [resizeLoop]
    · intro h
      rw [resizeLoop] at h
      rcases error_of_bind h with hkey | ⟨key, -, h⟩
      · exact orFault_ne_alloc _ hkey
      rcases error_of_bind h with hfind | ⟨j, -, h⟩
      · exact findLink_ne_alloc hfind
      rcases error_of_bind h with hlink | ⟨ring', -, h⟩
      · exact orFault_ne_alloc _ hlink
      · exact ih _ _ h

theorem calloc_alloc {capacity : ℕ} (h : calloc (K := K) capacity = .error .alloc) :
    2 ^ 59 ≤ capacity := by
  rw [calloc] at h
  split at h
  · cases h
  · omega

/-- Only the array of links is allocated. -/
theorem resize_alloc {capacity : ℕ} (h : resize H t capacity = .error .alloc) :
    2 ^ 59 ≤ capacity := by
  rw [resize] at h
  rcases error_of_bind h with hcalloc | ⟨newLinks, -, h⟩
  · exact calloc_alloc hcalloc
  rcases error_of_bind h with hunlink | ⟨old, -, h⟩
  · exact absurd hunlink (orFault_ne_alloc _)
  rcases error_of_bind h with hloop | ⟨new, -, h⟩
  · exact absurd hloop (resizeLoop_ne_alloc _ _ _)
  · cases h

theorem create_alloc {initialCapacity : ℕ} (hmax : initialCapacity ≤ 2 ^ 63)
    (h : create (K := K) initialCapacity = .error .alloc) : 2 ^ 58 < initialCapacity := by
  rw [create] at h
  rcases error_of_bind h with hcalloc | ⟨links, -, h⟩
  · have hasked := calloc_alloc hcalloc
    split at hasked
    · rename_i hge
      have hpos : 0 < initialCapacity := Nat.lt_of_lt_of_le (by decide) hge
      rw [(ceilPow2_eq hpos hmax).1, Nat.pow_le_pow_iff_right (by decide)] at hasked
      have hsize : 2 ^ 58 ≤ initialCapacity - 1 := Nat.lt_size.mp hasked
      omega
    · exact absurd hasked (by decide)
  · cases h

/-- A new key for which memory runs out fills half of the table. -/
theorem set_alloc (h : set H t (some k) v = .error .alloc) :
    (∃ link, findLink H t.links t.capacity k = .ok link ∧ (t.links link).key = none) ∧
      (t.count + 1) % 2 ^ 64 = t.capacity >>> 1 ∧ 2 ^ 59 ≤ t.capacity <<< 1 % 2 ^ 64 := by
  rw [set] at h
  rcases error_of_bind h with hfind | ⟨link, hfind, h⟩
  · exact absurd hfind findLink_ne_alloc
  by_cases hkey : (t.links link).key.isSome
  · rw [if_pos hkey] at h
    cases h
  · rw [if_neg hkey] at h
    rcases error_of_bind h with hlink | ⟨ring, -, h⟩
    · exact absurd hlink (orFault_ne_alloc _)
    by_cases hfull : (t.count + 1) % 2 ^ 64 = t.capacity >>> 1
    · rw [if_pos hfull] at h
      rcases error_of_bind h with hresize | ⟨t₁, -, h⟩
      · exact ⟨⟨link, hfind, by simpa using hkey⟩, hfull, resize_alloc hresize⟩
      · cases h
    · rw [if_neg hfull] at h
      cases h

theorem sweep_alloc (h : sweep H t = .error .alloc) : 2 ^ 59 ≤ t.capacity := by
  rw [sweep] at h
  split at h
  · rcases error_of_bind h with hresize | ⟨t₁, -, h⟩
    · exact resize_alloc hresize
    · cases h
  · cases h

theorem remove_alloc (h : remove H t (some k) = .error .alloc) : 2 ^ 59 ≤ t.capacity := by
  rw [remove] at h
  rcases error_of_bind h with hfind | ⟨link, -, h⟩
  · exact absurd hfind findLink_ne_alloc
  by_cases hkey : (t.links link).key.isNone
  · rw [if_pos hkey] at h
    cases h
  · rw [if_neg hkey] at h
    rcases error_of_bind h with hunlink | ⟨ring, -, h⟩
    · exact absurd hunlink (orFault_ne_alloc _)
    rcases error_of_bind h with hsweep | ⟨t₁, -, h⟩
    · have hcapacity := sweep_alloc hsweep
      exact hcapacity
    · rw [shrink_eq] at h
      cases h

/-- An operation for which memory runs out is one that sets a new key. -/
theorem Op.apply_alloc (hinv : Inv H t ns) {op : Op K} (h : op.apply H t = .error .alloc) :
    2 ^ 57 ≤ (op.effect H (entries t.links ns)).length := by
  obtain ⟨hshift, hback⟩ := hinv.shifts
  have hbytes := hinv.bytes
  cases op with
  | set k v =>
    rcases error_of_bind h with hset | ⟨t₁, -, h⟩
    · obtain ⟨⟨link, hfind, hkey⟩, hfull, hasked⟩ := set_alloc hset
      obtain ⟨i, -, hfind', hcases⟩ := hinv.findLink k
      rw [hfind] at hfind'
      obtain rfl := Except.ok.inj hfind'
      rcases hcases with ⟨-, k', hk, -⟩ | ⟨-, -, -, hnew⟩
      · rw [hkey] at hk
        cases hk
      · rw [Op.effect, OrderedMap.set, get_entries_none hnew]
        change _ ≤ (entries t.links ns ++ [(k, v.val)]).length
        rw [List.length_append, hinv.threaded.length_entries, ← hinv.count, List.length_singleton]
        omega
    · cases h
  | get k =>
    rcases error_of_bind h with hget | ⟨value, -, h⟩
    · rw [get_spec hinv] at hget
      cases hget
    · cases h
  | remove k =>
    rcases error_of_bind h with hremove | ⟨value, -, h⟩
    · have hcapacity := remove_alloc hremove
      omega
    · cases h

theorem runFrom_alloc {ops : List (Op K)} (hinv : Inv H t ns)
    (h : runFrom H t ops = .error .alloc) : 2 ^ 57 ≤ peak H (entries t.links ns) ops := by
  induction ops generalizing t ns with
  | nil => cases h
  | cons op ops ih =>
    rw [peak]
    refine Nat.le_trans ?_ (Nat.le_max_right _ _)
    rw [HashTable.runFrom] at h
    rcases error_of_bind h with hop | ⟨⟨value, t₁⟩, hop, h⟩
    · exact Nat.le_trans (Op.apply_alloc hinv hop) (length_le_peak _ ops)
    · rcases op.apply_entries hinv with hfail | ⟨t₁', ns₁, hop', hinv₁, hentries⟩
      · rw [hop] at hfail
        cases hfail
      · rw [hop] at hop'
        obtain ⟨-, rfl⟩ := Prod.mk.inj (Except.ok.inj hop')
        rw [← hentries]
        rcases error_of_bind h with hr | ⟨values, -, h⟩
        · exact ih hinv₁ hr
        · cases h

/-- Memory runs out only when a capacity of `2 ^ 59` or more is asked for: at the start, or when
`2 ^ 57` keys fill half of a table. -/
theorem run_alloc {initialCapacity : ℕ} {ops : List (Op K)} (hmax : initialCapacity ≤ 2 ^ 63)
    (h : run H initialCapacity ops = .error .alloc) :
    2 ^ 58 < initialCapacity ∨ 2 ^ 57 ≤ peak H [] ops := by
  rcases create_spec (H := H) hmax with hcreate | ⟨t, ns, hcreate, hinv, hentries⟩
  · exact .inl (create_alloc hmax hcreate)
  · rw [run, hcreate] at h
    exact .inr (hentries ▸ runFrom_alloc hinv h)

end Libuo.HashTable
