import Libuo.HashTableMap

/-!
# Runs of a hash table

What a run leaves behind. The counters bound the live and the removed slots, so that
every search ends, and the list holds the present keys in the order of their insertion.
-/

namespace Libuo.HashTable
open LinkList OpenAddressing OrderedMap

variable {K : Type} {H : KeyType K} {t : Hashtbl K} {ns : List ℕ}

/-- The counters agree with the slots, and some slot has never been used. -/
structure Bounded (t : Hashtbl K) : Prop where
  pow : ∃ e, t.capacity = 2 ^ e
  count : ((Finset.range t.capacity).filter fun i => (t.links i).key.isSome).card = t.count
  half : 2 * t.count < t.capacity
  removed : ((Finset.range t.capacity).filter fun i =>
    (t.links i).key.isNone ∧ (t.links i).value = tagRemoved).card = t.removedCount
  quarter : 4 * t.removedCount < t.capacity
  unused : ∃ i < t.capacity, (t.links i).key = none ∧ (t.links i).value = 0

/-- A search ends within `capacity` steps, whatever keys are compared by and whatever the
hash of the key is. -/
def SearchesEnd (t : Hashtbl K) : Prop :=
  ∀ (H' : KeyType K) (key : K),
    (∃ i < t.capacity, findLink H' t.links t.capacity key = .ok i) ∧
      ∀ h : UInt64, ∃ i < t.capacity,
        findLoop H' t.links ((t.capacity + (2 ^ 64 - 1)) % 2 ^ 64) key t.capacity
          (h.toNat &&& (t.capacity + (2 ^ 64 - 1)) % 2 ^ 64) = .ok i

theorem isRemoved_slots (links : ℕ → Item K) (i : ℕ) :
    (slots links i).isRemoved = true ↔
      ((links i).key.isNone = true ∧ (links i).value = tagRemoved) := by
  unfold slots Item.slot
  cases (links i).key with
  | some k => simp
  | none => by_cases h : (links i).value = tagRemoved <;> simp [h]

theorem Inv.count_live (h : Inv H t ns) :
    ((Finset.range t.capacity).filter fun i => (t.links i).key.isSome).card = t.count := by
  rw [h.count, ← List.toFinset_card_of_nodup h.threaded.table.nodup]
  congr 1
  ext i
  rw [Finset.mem_filter, Finset.mem_range, List.mem_toFinset]
  constructor
  · rintro ⟨hi, hkey⟩
    obtain ⟨k, hk⟩ := Option.isSome_iff_exists.mp hkey
    exact (h.threaded.table.live i).mpr ⟨hi, k, by simp [slots, Item.slot, hk]⟩
  · intro hi
    obtain ⟨hlt, k, hk, -⟩ := h.threaded.key_of_mem hi
    exact ⟨hlt, by simp [hk]⟩

/-- The live and the removed slots leave more than a quarter of the table. -/
theorem Inv.unused (h : Inv H t ns) :
    ∃ i < t.capacity, (t.links i).key = none ∧ (t.links i).value = 0 := by
  have hhalf := h.half
  have hquarter := h.quarter
  rw [h.removed] at hquarter
  obtain ⟨i, hi, hempty⟩ := h.threaded.table.exists_empty (by omega)
  have hvalid := h.threaded.valid i
  unfold slots Item.slot at hempty
  unfold Item.Valid at hvalid
  refine ⟨i, hi, ?_⟩
  cases hkey : (t.links i).key with
  | some k => simp [hkey] at hempty
  | none =>
    simp only [hkey] at hempty hvalid
    refine ⟨rfl, hvalid.resolve_left fun htag => ?_⟩
    simp [htag] at hempty

theorem Inv.bounded (h : Inv H t ns) : Bounded t where
  pow := h.pow
  count := h.count_live
  half := h.count ▸ h.half
  removed := by
    rw [h.removed, OpenAddressing.removedCount]
    congr 1
    exact Finset.filter_congr fun i _ => (isRemoved_slots t.links i).symm
  quarter := h.quarter
  unused := h.unused

/-- The loop ends at a slot where it may, if not before. -/
theorem findLoop_stops {links : ℕ → Item K} {mask : ℕ} {key : K} {n : ℕ} :
    ∀ (fuel h : ℕ), n < fuel → h + fuel < 2 ^ 64 →
      skips H (links ((h + n) &&& mask)) key = false →
      ∃ m, findLoop H links mask key fuel h = .ok ((h + m) &&& mask) := by
  induction n with
  | zero =>
    intro fuel h hn hlt hstop
    obtain ⟨fuel, rfl⟩ := Nat.exists_eq_add_of_lt hn
    refine ⟨0, ?_⟩
    rw [Nat.add_zero] at hstop
    rw [Nat.zero_add, findLoop, hstop]
    rfl
  | succ n ih =>
    intro fuel h hn hlt hstop
    obtain ⟨fuel, rfl⟩ : ∃ f, fuel = f + 1 := ⟨fuel - 1, by omega⟩
    rw [findLoop]
    split
    · obtain ⟨m, hm⟩ := ih fuel (h + 1) (by omega) (by omega)
        (by rwa [Nat.add_assoc, Nat.add_comm 1])
      exact ⟨m + 1, by rw [Nat.mod_eq_of_lt (by omega), hm, Nat.add_assoc, Nat.add_comm 1]⟩
    · exact ⟨0, rfl⟩

/-- A slot that was never used stops every search. -/
theorem Bounded.searchesEnd (h : Bounded t) (hbytes : t.capacity * 32 < 2 ^ 64) :
    SearchesEnd t := by
  obtain ⟨e, he⟩ := h.pow
  have hpos := Nat.two_pow_pos e
  have hmask : (t.capacity + (2 ^ 64 - 1)) % 2 ^ 64 = 2 ^ e - 1 := by omega
  have hends (H' : KeyType K) (key : K) (hash : UInt64) : ∃ i < t.capacity,
      findLoop H' t.links (2 ^ e - 1) key t.capacity (hash.toNat &&& 2 ^ e - 1) = .ok i := by
    obtain ⟨i, hi, hkey, hvalue⟩ := h.unused
    rw [Nat.and_two_pow_sub_one_eq_mod]
    have hlt := Nat.mod_lt hash.toNat hpos
    -- the distance from the start to the unused slot, around the table
    obtain ⟨n, hn, hplace⟩ : ∃ n < 2 ^ e, (hash.toNat % 2 ^ e + n) % 2 ^ e = i := by
      rcases Nat.lt_or_ge i (hash.toNat % 2 ^ e) with hbehind | hahead
      · refine ⟨i + 2 ^ e - hash.toNat % 2 ^ e, by omega, ?_⟩
        rw [show hash.toNat % 2 ^ e + (i + 2 ^ e - hash.toNat % 2 ^ e) = i + 2 ^ e by omega,
          Nat.add_mod_right, Nat.mod_eq_of_lt (by omega)]
      · refine ⟨i - hash.toNat % 2 ^ e, by omega, ?_⟩
        rw [Nat.add_sub_cancel' hahead, Nat.mod_eq_of_lt (by omega)]
    have hstop : skips H' (t.links ((hash.toNat % 2 ^ e + n) &&& 2 ^ e - 1)) key = false := by
      have hne : (0 : UInt64) ≠ tagRemoved := by decide
      rw [Nat.and_two_pow_sub_one_eq_mod, hplace, skips, hkey, hvalue]
      simp [hne]
    obtain ⟨m, hm⟩ := findLoop_stops t.capacity _ (by omega) (by omega) hstop
    refine ⟨_, ?_, hm⟩
    rw [Nat.and_two_pow_sub_one_eq_mod, he]
    exact Nat.mod_lt _ hpos
  intro H' key
  rw [findLink]
  simp only [hmask]
  exact ⟨hends H' key (H'.hash key), hends H' key⟩

theorem run_entries {initialCapacity : ℕ} (h : initialCapacity ≤ 2 ^ 63) (ops : List (Op K)) :
    run H initialCapacity ops = .error .alloc ∨
      ∃ values t ns, run H initialCapacity ops = .ok (values, t) ∧ Inv H t ns ∧
        entries t.links ns = ops.foldl (Op.effect H) [] := by
  rcases create_spec (H := H) h with hc | ⟨t, ns, hc, hinv, hent⟩
  · exact .inl (by rw [run, hc]; rfl)
  · have hrun : run H initialCapacity ops = runFrom H t ops := by
      rw [run, hc]
      rfl
    rw [hrun, ← hent]
    exact runFrom_entries hinv ops

/-- A run ends in a table less than half full, with less than a quarter of it removed, in
which every search ends; no search on the way goes on forever. -/
theorem run_bounded (H : KeyType K) {initialCapacity : ℕ} (h : initialCapacity ≤ 2 ^ 63)
    (ops : List (Op K)) :
    run H initialCapacity ops = .error .alloc ∨
      ∃ values t, run H initialCapacity ops = .ok (values, t) ∧ Bounded t ∧ SearchesEnd t := by
  rcases run_entries (H := H) h ops with hr | ⟨values, t, ns, hr, hinv, -⟩
  · exact .inl hr
  · exact .inr ⟨values, t, hr, hinv.bounded, hinv.bounded.searchesEnd hinv.bytes⟩

theorem run_bounded_crowded :
    16 ≤ 2 ^ 63 ∧ ∃ values t, run colliding 16 crowded = .ok (values, t) ∧ Bounded t ∧
      SearchesEnd t := by
  exact ⟨by decide,
    (run_bounded colliding (by decide) crowded).resolve_left run_crowded_ne⟩

/-- The number of operations before the one that put a key in; the latest operation comes
first. -/
def insertedAt (H : KeyType K) : List (Op K) → K → ℕ
  | [], _ => 0
  | .set k' _ :: past, k =>
    if H.equals k' k && (current H past k).isNone then past.length else insertedAt H past k
  | .get _ :: past, k => insertedAt H past k
  | .remove _ :: past, k => insertedAt H past k

/-- Each present key once, with its current value, in the order of insertion. -/
structure InOrder (H : KeyType K) (past : List (Op K)) (m : List (K × UInt64)) : Prop where
  present : Present H past (m.map Prod.fst)
  values : ∀ e ∈ m, current H past e.1 = some e.2
  order : m.Pairwise fun e e' => insertedAt H past e.1 < insertedAt H past e'.1

/-- Following `next` from the head of the list leads over these entries, one link for each,
and back to the head; following `prev` leads over them in reverse. -/
def Lists (t : Hashtbl K) (m : List (K × UInt64)) : Prop :=
  ∃ ns : List ℕ, (∀ i ∈ ns, i < t.capacity) ∧ m.length = t.count ∧
    ns.map t.links = m.map (fun e => ⟨some e.1, e.2⟩) ∧
    follow t.ring.next (t.count + 1) .head = some (ns.map .slot ++ [.head]) ∧
    follow t.ring.prev (t.count + 1) .head = some ((ns.map .slot).reverse ++ [.head])

/-- The entries are those a history leaves, and an earlier one was put in earlier. -/
structure Aged (H : KeyType K) (past : List (Op K)) (m : List (K × UInt64)) : Prop where
  get : ∀ k, OrderedMap.get H.toKeyEq m k = current H past k
  order : m.Pairwise fun e e' => insertedAt H past e.1 < insertedAt H past e'.1
  before : ∀ e ∈ m, insertedAt H past e.1 < past.length

variable {past : List (Op K)} {m : List (K × UInt64)} {k : K} {v : {v : UInt64 // v ≠ tagRemoved}}

theorem Aged.insertedAt_cons (h : Aged H past m) {e : K × UInt64} (he : e ∈ m) (op : Op K) :
    insertedAt H (op :: past) e.1 = insertedAt H past e.1 := by
  have hsome : (current H past e.1).isSome := by
    rw [← h.get]
    exact get_isSome.mpr ⟨e, he, H.refl e.1⟩
  cases op with
  | set k v => simp [insertedAt, Option.isNone_eq_false_iff.mpr hsome]
  | get k | remove k => rfl

/-- Entries with the keys of old ones are as old as these. -/
theorem Aged.pairwise_cons (h : Aged H past m) (op : Op K) :
    m.Pairwise fun e e' => insertedAt H (op :: past) e.1 < insertedAt H (op :: past) e'.1 := by
  refine List.Pairwise.imp_of_mem (fun {a b} ha hb hab => ?_) h.order
  rwa [h.insertedAt_cons ha, h.insertedAt_cons hb]

theorem Aged.before_cons (h : Aged H past m) (op : Op K) :
    ∀ e ∈ m, insertedAt H (op :: past) e.1 < past.length := by
  intro e he
  rw [h.insertedAt_cons he]
  exact h.before e he

theorem Aged.set (h : Aged H past m) (k : K) (v : {v : UInt64 // v ≠ tagRemoved}) :
    Aged H (.set k v :: past) (OrderedMap.set H.toKeyEq m k v.val) := by
  have hget (k' : K) : OrderedMap.get H.toKeyEq (OrderedMap.set H.toKeyEq m k v.val) k' =
      current H (.set k v :: past) k' := by
    rw [get_set, h.get]
    rfl
  have horder := h.pairwise_cons (.set k v)
  have hbefore := h.before_cons (.set k v)
  unfold OrderedMap.set at hget ⊢
  by_cases hpresent : (OrderedMap.get H.toKeyEq m k).isSome
  · -- the key keeps its place
    rw [if_pos hpresent] at hget ⊢
    have hfst (e : K × UInt64) : (if H.equals e.1 k then (e.1, v.val) else e).1 = e.1 := by
      split <;> rfl
    refine ⟨hget, ?_, fun e he => ?_⟩
    · rw [List.pairwise_map]
      simpa only [hfst] using horder
    · obtain ⟨e', he', rfl⟩ := List.mem_map.mp he
      rw [hfst]
      exact Nat.lt_succ_of_lt (hbefore e' he')
  · -- it comes last
    rw [if_neg hpresent] at hget ⊢
    have hnone : current H past k = none := by
      rw [← h.get]
      simpa using hpresent
    have hlast : insertedAt H (.set k v :: past) k = past.length := by
      simp [insertedAt, hnone, H.refl k]
    refine ⟨hget, ?_, fun e he => ?_⟩
    · refine List.pairwise_append.mpr ⟨horder, List.pairwise_singleton _ _, fun e he e' he' => ?_⟩
      obtain rfl : e' = (k, v.val) := List.mem_singleton.mp he'
      rw [hlast]
      exact hbefore e he
    · rcases List.mem_append.mp he with hold | hnew
      · exact Nat.lt_succ_of_lt (hbefore e hold)
      · obtain rfl : e = (k, v.val) := List.mem_singleton.mp hnew
        rw [hlast]
        exact Nat.lt_succ_self _

theorem Aged.remove (h : Aged H past m) (k : K) :
    Aged H (.remove k :: past) (OrderedMap.remove H.toKeyEq m k) := by
  refine ⟨fun k' => ?_, (h.pairwise_cons (.remove k)).filter _, fun e he => ?_⟩
  · rw [get_remove, h.get]
    rfl
  · exact Nat.lt_succ_of_lt (h.before_cons (.remove k) e (List.mem_of_mem_filter he))

theorem Aged.effect (h : Aged H past m) (op : Op K) : Aged H (op :: past) (op.effect H m) := by
  cases op with
  | set k v => exact h.set k v
  | get k =>
    exact ⟨h.get, h.pairwise_cons (.get k), fun e he =>
      Nat.lt_succ_of_lt (h.before_cons (.get k) e he)⟩
  | remove k => exact h.remove k

theorem Aged.foldl_effect (h : Aged H past m) (ops : List (Op K)) :
    Aged H (ops.reverse ++ past) (ops.foldl (Op.effect H) m) := by
  induction ops generalizing past m with
  | nil => exact h
  | cons op ops ih => simpa using ih (h.effect op)

theorem aged_nil : Aged H [] [] := ⟨fun _ => rfl, List.Pairwise.nil, by simp⟩

theorem Aged.inOrder (h : Aged H past m) (hdistinct : Distinct H.toKeyEq m) :
    InOrder H past m where
  present := by
    refine ⟨List.pairwise_map.mpr hdistinct, fun k => ?_⟩
    rw [← h.get, get_isSome]
    simp
  values e he := by
    rw [← h.get]
    exact hdistinct.get_of_mem he (H.refl e.1)
  order := h.order

theorem lists_entries (h : Threaded H t.ring t.links t.capacity ns) (hcount : t.count = ns.length) :
    Lists t (entries t.links ns) := by
  refine ⟨ns, fun i hi => (h.key_of_mem hi).1, by rw [h.length_entries, hcount], ?_, ?_, ?_⟩
  · have hitems : ∀ l : List ℕ, (∀ i ∈ l, i ∈ ns) →
        l.map t.links = (entries t.links l).map fun e => ⟨some e.1, e.2⟩ := by
      intro l hl
      induction l with
      | nil => rfl
      | cons i l ih =>
        obtain ⟨-, k, hk, -⟩ := h.key_of_mem (hl i (by simp))
        have hcons : entries t.links (i :: l) = (k, (t.links i).value) :: entries t.links l := by
          simp [entries, hk]
        rw [List.map_cons, hcons, List.map_cons, ih fun j hj => hl j (by simp [hj]), ← hk]
    exact hitems ns fun _ => id
  · have := h.isRing.follow_next
    rwa [List.length_map, ← hcount] at this
  · have := h.isRing.follow_prev
    rwa [List.length_map, ← hcount] at this

/-- The list of a table after a run holds the present keys in the order of insertion, and
rebuilding the table at any size that has room for them leaves it so. -/
theorem run_inOrder (H : KeyType K) {initialCapacity : ℕ} (h : initialCapacity ≤ 2 ^ 63)
    (ops : List (Op K)) :
    run H initialCapacity ops = .error .alloc ∨
      ∃ values t m, run H initialCapacity ops = .ok (values, t) ∧
        InOrder H ops.reverse m ∧ Lists t m ∧
        ∀ e, t.count < 2 ^ e → resize H t (2 ^ e) = .error .alloc ∨
          ∃ t', resize H t (2 ^ e) = .ok t' ∧ t'.count = t.count ∧ Lists t' m := by
  rcases run_entries (H := H) h ops with hr | ⟨values, t, ns, hr, hinv, hent⟩
  · exact .inl hr
  · refine .inr ⟨values, t, entries t.links ns, hr, ?_, lists_entries hinv.threaded hinv.count,
      fun e he => ?_⟩
    · have haged : Aged H ops.reverse (entries t.links ns) := by
        rw [hent]
        simpa using aged_nil.foldl_effect ops
      exact haged.inOrder hinv.threaded.distinct
    · rcases resize_spec hinv.threaded hinv.count (hinv.count ▸ he) with hs |
        ⟨t', ns', hs, hcap, -, hcount, hthreaded, hentries, -⟩
      · exact .inl hs
      · refine .inr ⟨t', hs, hcount, ?_⟩
        have hlen : t'.count = ns'.length := by
          rw [← hthreaded.length_entries, hentries, hinv.threaded.length_entries, hcount,
            hinv.count]
        rw [← hentries]
        exact lists_entries (hcap ▸ hthreaded) hlen

theorem run_inOrder_crowded :
    16 ≤ 2 ^ 63 ∧ ∃ values t m, run colliding 16 crowded = .ok (values, t) ∧
      InOrder colliding crowded.reverse m ∧ Lists t m ∧
      ∀ e, t.count < 2 ^ e → resize colliding t (2 ^ e) = .error .alloc ∨
        ∃ t', resize colliding t (2 ^ e) = .ok t' ∧ t'.count = t.count ∧ Lists t' m := by
  exact ⟨by decide,
    (run_inOrder colliding (by decide) crowded).resolve_left run_crowded_ne⟩

end Libuo.HashTable
