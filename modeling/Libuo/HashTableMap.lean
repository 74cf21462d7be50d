import Libuo.HashTableInvariant

/-!
# Hash tables as maps

A run of a table against its history: a value that is got is the one last set and not
removed since, and the count is the number of keys present. The bounds on live and
removed slots that keep every search finite are part of the invariant.
-/

namespace Libuo.HashTable
open LinkList OpenAddressing OrderedMap Util

variable {K : Type} (H : KeyType K)

/-- The table is less than half full, and less than a quarter of it has been removed. -/
structure Inv (t : Hashtbl K) (ns : List ℕ) : Prop where
  pow : ∃ e, t.capacity = 2 ^ e
  min : minCapacity ≤ t.capacity
  bytes : t.capacity * 32 < 2 ^ 64
  threaded : Threaded H t.ring t.links t.capacity ns
  count : t.count = ns.length
  removed : t.removedCount = OpenAddressing.removedCount t.capacity (slots t.links)
  half : 2 * ns.length < t.capacity
  quarter : 4 * t.removedCount < t.capacity

variable {H} {t : Hashtbl K} {ns : List ℕ} {k : K} {v : UInt64}

/-- Either memory runs out, or a table with the given entries is returned. -/
def Yields (H : KeyType K) (x : Except Failure (Hashtbl K)) (m : List (K × UInt64)) : Prop :=
  x = .error .alloc ∨ ∃ t' ns', x = .ok t' ∧ Inv H t' ns' ∧ entries t'.links ns' = m

theorem create_spec {initialCapacity : ℕ} (h : initialCapacity ≤ 2 ^ 63) :
    Yields H (create initialCapacity) [] := by
  obtain ⟨e, he, hmin⟩ : ∃ e, (if initialCapacity ≥ minCapacity then
      (ceilPow2 (UInt64.ofNat initialCapacity)).toNat else minCapacity) = 2 ^ e ∧
        minCapacity ≤ 2 ^ e := by
    split
    · rename_i hge
      have hpos : 0 < initialCapacity := Nat.lt_of_lt_of_le (by decide) hge
      obtain ⟨heq, hle⟩ := ceilPow2_eq hpos h
      exact ⟨_, heq, Nat.le_trans hge hle⟩
    · exact ⟨4, rfl, Nat.le_refl _⟩
  by_cases hbytes : 2 ^ e * 32 < 2 ^ 64
  · refine .inr ⟨⟨Links.zero.selflink .head, 0, 0, 2 ^ e, fun _ => ⟨none, 0⟩⟩, [], ?_, ?_, rfl⟩
    · rw [create]
      simp only [he, calloc, if_pos hbytes]
      rfl
    · exact ⟨⟨e, rfl⟩, hmin, hbytes, threaded_create (Nat.two_pow_pos e), rfl,
        (removedCount_create _).symm, Nat.two_pow_pos e, Nat.two_pow_pos e⟩
  · refine .inl ?_
    rw [create]
    simp only [he, calloc, if_neg hbytes]
    rfl

theorem Inv.exponent (h : Inv H t ns) : ∃ e, t.capacity = 2 ^ e ∧ 4 ≤ e ∧ e < 59 := by
  obtain ⟨e, he⟩ := h.pow
  have hmin : 2 ^ 4 ≤ 2 ^ e := he ▸ h.min
  have hmax : 2 ^ e < 2 ^ 59 := by
    have := h.bytes
    omega
  exact ⟨e, he, (Nat.pow_le_pow_iff_right (by omega)).mp hmin,
    (Nat.pow_lt_pow_iff_right (by omega)).mp hmax⟩

theorem Inv.findLink (h : Inv H t ns) (k : K) :
    ∃ i < t.capacity, HashTable.findLink H t.links t.capacity k = .ok i ∧
      ((i ∈ ns ∧ ∃ k', (t.links i).key = some k' ∧ H.equals k' k = true) ∨
        ((t.links i).key = none ∧ (t.links i).value = 0 ∧
          Reaches H t.capacity (slots t.links) k i ∧
          ∀ j ∈ ns, ∀ k', slots t.links j = .live k' → H.equals k' k = false)) := by
  obtain ⟨e, he, -, hlt⟩ := h.exponent
  have hthreaded := h.threaded
  have hhalf := h.half
  have hquarter := h.quarter
  rw [h.removed] at hquarter
  rw [he] at hthreaded hhalf hquarter ⊢
  exact hthreaded.findLink (by omega) (by omega) k

theorem get_spec (h : Inv H t ns) (k : K) :
    get H t (some k) =
      .ok ((OrderedMap.get H.toKeyEq (entries t.links ns) k).getD 0) := by
  obtain ⟨i, hi, hfind, hcases⟩ := h.findLink k
  rw [get, hfind]
  rcases hcases with ⟨hns, k', hk, heq⟩ | ⟨-, hvalue, -, hnew⟩
  · rw [h.threaded.get_entries hns hk heq]
    rfl
  · rw [get_entries_none hnew]
    exact congrArg Except.ok hvalue

theorem rebuild_spec {e : ℕ} (h : Threaded H t.ring t.links t.capacity ns)
    (hcount : t.count = ns.length) (hmin : minCapacity ≤ 2 ^ e) (hhalf : 2 * ns.length < 2 ^ e) :
    Yields H (do
      let t ← resize H t (2 ^ e)
      pure { t with removedCount := 0 }) (entries t.links ns) := by
  rcases resize_spec h hcount (show ns.length < 2 ^ e by omega) with hr |
    ⟨t', ns', hr, hcap, hbytes, hcount', hthreaded, hentries, hremoved⟩
  · rw [hr]
    exact .inl rfl
  · have hlen : ns'.length = ns.length := by
      rw [← hthreaded.length_entries, ← h.length_entries, hentries]
    rw [hr]
    refine .inr ⟨{ t' with removedCount := 0 }, ns', rfl, ?_, hentries⟩
    have hpos := Nat.two_pow_pos e
    rw [← hcap] at hbytes hthreaded hremoved hmin hhalf hpos
    exact ⟨⟨e, hcap⟩, hmin, hbytes, hthreaded, by rw [hlen, ← hcount, ← hcount'],
      hremoved.symm, by rwa [hlen], by simpa using hpos⟩

/-- Setting a key: in its place, or last, with a rebuilding when the table is half full. -/
theorem set_spec (h : Inv H t ns) (k : K) (hv : v ≠ tagRemoved) :
    Yields H (set H t (some k) v) (OrderedMap.set H.toKeyEq (entries t.links ns) k v) := by
  obtain ⟨e, he, hmin, hmax⟩ := h.exponent
  obtain ⟨i, hi, hfind, hcases⟩ := h.findLink k
  have hset : set H t (some k) v = (do
      if (t.links i).key.isSome then
        pure { t with links := Function.update t.links i { t.links i with value := v } }
      else
        let ring ← orFault (t.ring.link .head (.slot i))
        let t := { t with
          links := Function.update t.links i ⟨some k, v⟩
          ring
          count := (t.count + 1) % 2 ^ 64 }
        if t.count = t.capacity >>> 1 then
          let t ← resize H t (t.capacity <<< 1 % 2 ^ 64)
          pure { t with removedCount := 0 }
        else pure t) := by
    rw [set, hfind]
    rfl
  rw [hset]
  rcases hcases with ⟨hns, k', hk, heq⟩ | ⟨hkey, hvalue, hreach, hnew⟩
  · obtain ⟨hthreaded, hentries, hslots⟩ := h.threaded.overwrite hns hk heq hv
    rw [if_pos (by simp [hk])]
    exact .inr ⟨_, ns, rfl, ⟨h.pow, h.min, h.bytes, hthreaded, h.count, hslots ▸ h.removed,
      h.half, h.quarter⟩, hentries⟩
  · obtain ⟨ring', hlink, hthreaded, hentries, hremoved⟩ :=
      h.threaded.insert hi hkey hvalue hreach hnew hv
    have hmap : OrderedMap.set H.toKeyEq (entries t.links ns) k v =
        entries t.links ns ++ [(k, v)] := by
      rw [OrderedMap.set, get_entries_none hnew]
      rfl
    have hhalf := h.half
    have hbytes := h.bytes
    have hcount : (t.count + 1) % 2 ^ 64 = ns.length + 1 := by
      rw [h.count, Nat.mod_eq_of_lt (by omega)]
    rw [if_neg (by simp [hkey]), hlink, hmap, ← hentries]
    change Yields H (if (t.count + 1) % 2 ^ 64 = t.capacity >>> 1 then _ else _) _
    have hdouble : t.capacity <<< 1 % 2 ^ 64 = 2 ^ (e + 1) := by
      rw [he, Nat.shiftLeft_eq, pow_one, ← pow_succ, Nat.mod_eq_of_lt]
      exact Nat.pow_lt_pow_right (by omega) (by omega)
    have hsucc : 2 ^ (e + 1) = 2 * t.capacity := by rw [pow_succ, Nat.mul_comm, he]
    have heven : t.capacity = 2 * 2 ^ (e - 1) := by
      rw [he, ← pow_succ', Nat.sub_add_cancel (by omega)]
    rw [hcount, Nat.shiftRight_eq_div_pow, hdouble]
    split
    · rename_i hfull
      have hmin' := h.min
      refine rebuild_spec (t := { t with
        links := Function.update t.links i ⟨some k, v⟩, ring := ring', count := ns.length + 1 })
        hthreaded (by simp) (by omega) ?_
      rw [List.length_append, List.length_singleton]
      omega
    · rename_i hne
      refine .inr ⟨_, ns ++ [i], rfl, ⟨h.pow, h.min, h.bytes, hthreaded, by simp,
        h.removed.trans hremoved.symm, ?_, h.quarter⟩, rfl⟩
      rw [List.length_append, List.length_singleton]
      change 2 * (ns.length + 1) < t.capacity
      omega

theorem shrink_eq (t : Hashtbl K) : shrink H t = .ok t := by
  have : ¬ (if t.count = t.capacity >>> 3 then 1 else 0) ≥ minCapacity := by
    split <;> decide
  rw [shrink, if_neg this]
  rfl

theorem sweep_spec (hpow : ∃ e, t.capacity = 2 ^ e) (hmin : minCapacity ≤ t.capacity)
    (hbytes : t.capacity * 32 < 2 ^ 64) (h : Threaded H t.ring t.links t.capacity ns)
    (hcount : t.count = ns.length)
    (hremoved : t.removedCount = OpenAddressing.removedCount t.capacity (slots t.links))
    (hhalf : 2 * ns.length < t.capacity) : Yields H (sweep H t) (entries t.links ns) := by
  obtain ⟨e, he⟩ := hpow
  rw [sweep, Nat.shiftRight_eq_div_pow]
  split
  · have := rebuild_spec h hcount (he ▸ hmin) (he ▸ hhalf)
    rwa [← he] at this
  · rename_i hne
    refine .inr ⟨t, ns, rfl, ⟨⟨e, he⟩, hmin, hbytes, h, hcount, hremoved, hhalf, ?_⟩, rfl⟩
    have hmin' : 2 ^ 2 ≤ 2 ^ e := Nat.le_trans (by decide) (he ▸ hmin)
    have hle : 2 ≤ e := (Nat.pow_le_pow_iff_right (by omega)).mp hmin'
    have : t.capacity = 4 * 2 ^ (e - 2) := by
      rw [he, show (4 : ℕ) = 2 ^ 2 from rfl, ← pow_add]
      congr 1
      omega
    omega

theorem remove_spec (h : Inv H t ns) (k : K) :
    remove H t (some k) = .error .alloc ∨ ∃ t' ns',
      remove H t (some k) =
        .ok ((OrderedMap.get H.toKeyEq (entries t.links ns) k).getD 0, t') ∧
      Inv H t' ns' ∧ entries t'.links ns' = OrderedMap.remove H.toKeyEq (entries t.links ns) k := by
  obtain ⟨e, he, hmin, hmax⟩ := h.exponent
  obtain ⟨i, hi, hfind, hcases⟩ := h.findLink k
  rcases hcases with ⟨hns, k', hk, heq⟩ | ⟨hkey, hvalue, -, hnew⟩
  · obtain ⟨ring', hunlink, hthreaded, hentries, hremoved⟩ := h.threaded.erase hns hk heq
    have hget := h.threaded.get_entries hns hk heq
    have hpos := List.length_pos_of_mem hns
    have hhalf := h.half
    have hquarter := h.quarter
    have hbytes := h.bytes
    have hlen : (ns.erase i).length = ns.length - 1 := List.length_erase_of_mem hns
    have hcount : (t.count + (2 ^ 64 - 1)) % 2 ^ 64 = (ns.erase i).length := by
      rw [h.count]
      omega
    have hremovedCount : (t.removedCount + 1) % 2 ^ 64 = t.removedCount + 1 :=
      Nat.mod_eq_of_lt (by omega)
    obtain ⟨t₁, ht₁⟩ : ∃ t₁ : Hashtbl K, t₁ = { t with
        links := Function.update t.links i ⟨none, tagRemoved⟩
        ring := ring'
        removedCount := (t.removedCount + 1) % 2 ^ 64
        count := (t.count + (2 ^ 64 - 1)) % 2 ^ 64 } := ⟨_, rfl⟩
    have hsweep : Yields H (sweep H t₁) (entries t₁.links (ns.erase i)) := by
      subst ht₁
      refine sweep_spec h.pow h.min h.bytes hthreaded hcount ?_ ?_
      · exact hremovedCount.trans ((congrArg (· + 1) h.removed).trans hremoved.symm)
      · change 2 * (ns.erase i).length < t.capacity
        omega
    have hremove : remove H t (some k) = (do
        let t' ← sweep H t₁
        let t' ← shrink H t'
        pure ((t.links i).value, t')) := by
      subst ht₁
      rw [remove, hfind]
      change (if (t.links i).key.isNone then _ else _) = _
      rw [if_neg (by simp [hk]), hunlink]
      rfl
    have hmap : entries t₁.links (ns.erase i) =
        OrderedMap.remove H.toKeyEq (entries t.links ns) k := by
      rw [ht₁, ← hentries]
    rw [hremove, hget, ← hmap]
    rcases hsweep with hs | ⟨t', ns', hs, hinv, hent⟩
    · rw [hs]
      exact .inl rfl
    · refine .inr ⟨t', ns', ?_, hinv, hent⟩
      rw [hs]
      change (do
        let t' ← shrink H t'
        pure ((t.links i).value, t')) = _
      rw [shrink_eq]
      rfl
  · have hnone := get_entries_none hnew
    refine .inr ⟨t, ns, ?_, h, (remove_of_get_none hnone).symm⟩
    rw [remove]
    rw [hfind, hnone]
    change (if (t.links i).key.isNone then _ else _) = _
    rw [if_pos (by simp [hkey])]
    rfl

/-- An operation on keys that are not `NULL` and values other than the tag. -/
inductive Op (K : Type) where
  | set (k : K) (v : {v : UInt64 // v ≠ tagRemoved})
  | get (k : K)
  | remove (k : K)

/-- One operation, with the value it returns. -/
def Op.apply (H : KeyType K) (t : Hashtbl K) : Op K → Except Failure (Option UInt64 × Hashtbl K)
  | .set k v => do
    let t ← HashTable.set H t (some k) v.val
    pure (none, t)
  | .get k => do
    let value ← HashTable.get H t (some k)
    pure (some value, t)
  | .remove k => do
    let (value, t) ← HashTable.remove H t (some k)
    pure (some value, t)

/-- A sequence of operations. -/
def runFrom (H : KeyType K) : Hashtbl K → List (Op K) →
    Except Failure (List (Option UInt64) × Hashtbl K)
  | t, [] => .ok ([], t)
  | t, op :: ops => do
    let (value, t) ← op.apply H t
    let (values, t) ← runFrom H t ops
    pure (value :: values, t)

def run (H : KeyType K) (initialCapacity : ℕ) (ops : List (Op K)) :
    Except Failure (List (Option UInt64) × Hashtbl K) := do
  let t ← create initialCapacity
  runFrom H t ops

/-- What an operation does to the entries. -/
def Op.effect (H : KeyType K) (m : List (K × UInt64)) : Op K → List (K × UInt64)
  | .set k v => OrderedMap.set H.toKeyEq m k v.val
  | .get _ => m
  | .remove k => OrderedMap.remove H.toKeyEq m k

/-- What it returns. -/
def Op.result (H : KeyType K) (m : List (K × UInt64)) : Op K → Option UInt64
  | .set _ _ => none
  | .get k | .remove k => some ((OrderedMap.get H.toKeyEq m k).getD 0)

theorem Op.apply_entries (h : Inv H t ns) (op : Op K) :
    op.apply H t = .error .alloc ∨ ∃ t' ns',
      op.apply H t = .ok (op.result H (entries t.links ns), t') ∧ Inv H t' ns' ∧
      entries t'.links ns' = op.effect H (entries t.links ns) := by
  cases op with
  | set k v =>
    rcases set_spec h k v.property with hs | ⟨t', ns', hs, h', hent⟩
    · exact .inl (by rw [Op.apply, hs]; rfl)
    · exact .inr ⟨t', ns', by rw [Op.apply, hs]; rfl, h', hent⟩
  | get k => exact .inr ⟨t, ns, by rw [Op.apply, get_spec h]; rfl, h, rfl⟩
  | remove k =>
    rcases remove_spec h k with hs | ⟨t', ns', hs, h', hent⟩
    · exact .inl (by rw [Op.apply, hs]; rfl)
    · exact .inr ⟨t', ns', by rw [Op.apply, hs]; rfl, h', hent⟩

theorem runFrom_entries (h : Inv H t ns) (ops : List (Op K)) :
    runFrom H t ops = .error .alloc ∨ ∃ values t' ns', runFrom H t ops = .ok (values, t') ∧
      Inv H t' ns' ∧ entries t'.links ns' = ops.foldl (Op.effect H) (entries t.links ns) := by
  induction ops generalizing t ns with
  | nil => exact .inr ⟨[], t, ns, rfl, h, rfl⟩
  | cons op ops ih =>
    rcases op.apply_entries h with hs | ⟨t', ns', hs, h', hent⟩
    · exact .inl (by rw [runFrom, hs]; rfl)
    · rcases ih h' with hr | ⟨values, t'', ns'', hr, h'', hent'⟩
      · refine .inl ?_
        rw [runFrom, hs]
        change (runFrom H t' ops >>= _) = _
        rw [hr]
        rfl
      · refine .inr ⟨op.result H (entries t.links ns) :: values, t'', ns'', ?_, h'',
          by rw [hent', hent]; rfl⟩
        rw [runFrom, hs]
        change (runFrom H t' ops >>= _) = _
        rw [hr]
        rfl

/-- The value last set for a key and not removed since; the latest operation comes first. -/
def current (H : KeyType K) : List (Op K) → K → Option UInt64
  | [], _ => none
  | .set k' v :: past, k => if H.equals k' k then some v.val else current H past k
  | .get _ :: past, k => current H past k
  | .remove k' :: past, k => if H.equals k' k then none else current H past k

/-- What an operation returns after the given ones. -/
def Op.expected (H : KeyType K) (past : List (Op K)) : Op K → Option UInt64
  | .set _ _ => none
  | .get k | .remove k => some ((current H past k).getD 0)

def expected (H : KeyType K) : List (Op K) → List (Op K) → List (Option UInt64)
  | _, [] => []
  | past, op :: ops => op.expected H past :: expected H (op :: past) ops

/-- The keys that are present, each once. -/
structure Present (H : KeyType K) (past : List (Op K)) (keys : List K) : Prop where
  distinct : keys.Pairwise fun k k' => H.equals k k' = false
  complete : ∀ k, (current H past k).isSome ↔ ∃ k' ∈ keys, H.equals k' k = true

/-- The entries of a table are those its history leaves. -/
def Refines (H : KeyType K) (t : Hashtbl K) (past : List (Op K)) : Prop :=
  ∃ ns, Inv H t ns ∧ ∀ k, OrderedMap.get H.toKeyEq (entries t.links ns) k = current H past k

theorem Refines.present {past : List (Op K)} (h : Refines H t past) :
    ∃ keys, Present H past keys ∧ t.count = keys.length := by
  obtain ⟨ns, hinv, hget⟩ := h
  refine ⟨(entries t.links ns).map Prod.fst, ⟨?_, fun k => ?_⟩, ?_⟩
  · exact List.pairwise_map.mpr hinv.threaded.distinct
  · rw [← hget, get_isSome]
    simp
  · rw [List.length_map, hinv.threaded.length_entries, hinv.count]

theorem Op.apply_spec {past : List (Op K)} (h : Refines H t past) (op : Op K) :
    op.apply H t = .error .alloc ∨
      ∃ t', op.apply H t = .ok (op.expected H past, t') ∧ Refines H t' (op :: past) := by
  obtain ⟨ns, hinv, hget⟩ := h
  rcases op.apply_entries hinv with hs | ⟨t', ns', hs, hinv', hent⟩
  · exact .inl hs
  · refine .inr ⟨t', ?_, ns', hinv', fun k => ?_⟩
    · rw [hs]
      cases op <;> simp only [Op.result, Op.expected, hget]
    · rw [hent]
      cases op with
      | set k' v => simp only [Op.effect, current, get_set, hget]
      | get k' => exact hget k
      | remove k' => simp only [Op.effect, current, get_remove, hget]

theorem runFrom_spec {past : List (Op K)} (h : Refines H t past) (ops : List (Op K)) :
    runFrom H t ops = .error .alloc ∨
      ∃ t', runFrom H t ops = .ok (expected H past ops, t') ∧
        Refines H t' (ops.reverse ++ past) := by
  induction ops generalizing t past with
  | nil => exact .inr ⟨t, rfl, h⟩
  | cons op ops ih =>
    rcases op.apply_spec h with hs | ⟨t', hs, h'⟩
    · exact .inl (by rw [runFrom, hs]; rfl)
    · rcases ih h' with hr | ⟨t'', hr, h''⟩
      · refine .inl ?_
        rw [runFrom, hs]
        change (runFrom H t' ops >>= _) = _
        rw [hr]
        rfl
      · refine .inr ⟨t'', ?_, by simpa using h''⟩
        rw [runFrom, hs]
        change (runFrom H t' ops >>= _) = _
        rw [hr]
        rfl

/-- A hash table is a finite map: unless memory runs out, every operation of a run returns
what the operations before it say, and the count is the number of keys present. -/
theorem run_spec (H : KeyType K) {initialCapacity : ℕ} (h : initialCapacity ≤ 2 ^ 63)
    (ops : List (Op K)) :
    run H initialCapacity ops = .error .alloc ∨
      ∃ t keys, run H initialCapacity ops = .ok (expected H [] ops, t) ∧
        Present H ops.reverse keys ∧ t.count = keys.length := by
  rcases create_spec (H := H) h with hc | ⟨t, ns, hc, hinv, hent⟩
  · exact .inl (by rw [run, hc]; rfl)
  · have hrefines : Refines H t [] := ⟨ns, hinv, fun k => by rw [hent]; rfl⟩
    have hrun : run H initialCapacity ops = runFrom H t ops := by
      rw [run, hc]
      rfl
    rcases runFrom_spec hrefines ops with hr | ⟨t', hr, h'⟩
    · exact .inl (hrun.trans hr)
    · rw [List.append_nil] at h'
      obtain ⟨keys, hkeys, hcount⟩ := h'.present
      exact .inr ⟨t', keys, hrun.trans hr, hkeys, hcount⟩

/-- Numbers with a hash under which all of them collide. -/
def colliding : KeyType ℕ where
  equals := Nat.beq
  refl := Nat.beq_refl
  symm := by simp +contextual
  trans := by simp +contextual
  hash _ := 7
  hash_eq _ := rfl

/-- The capacity and the count after a run that returns. -/
def sizes (x : Except Failure (List (Option UInt64) × Hashtbl K)) : Option (ℕ × ℕ) :=
  x.toOption.map fun r => (r.2.capacity, r.2.count)

/-- Eight keys that collide fill half of a table, which is rebuilt at twice its size; when eight
have been removed it is rebuilt again, with the one that is left. -/
def crowded : List (Op ℕ) :=
  (List.range 8).map (fun k => .set k ⟨5, by decide⟩) ++ [.set 2 ⟨6, by decide⟩, .get 2] ++
    (List.range 7).map .remove ++ [.set 9 ⟨7, by decide⟩, .remove 7, .get 9, .get 7]

theorem sizes_crowded : sizes (run colliding 16 crowded) = some (32, 1) := by
  decide +kernel

theorem run_crowded_ne : run colliding 16 crowded ≠ .error .alloc := by
  intro h
  have hsizes := sizes_crowded
  rw [h] at hsizes
  cases hsizes

theorem run_spec_crowded :
    16 ≤ 2 ^ 63 ∧
      (expected colliding [] crowded).filterMap id = [6, 5, 5, 6, 5, 5, 5, 5, 5, 7, 0] ∧
      ∃ t keys, run colliding 16 crowded = .ok (expected colliding [] crowded, t) ∧
        Present colliding crowded.reverse keys ∧ t.count = keys.length :=
  ⟨by decide, by decide +kernel,
    (run_spec colliding (by decide) crowded).resolve_left run_crowded_ne⟩

end Libuo.HashTable
