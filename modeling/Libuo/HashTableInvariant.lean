import Libuo.HashTable

/-!
# The invariant of a hash table

The live slots, in the order of the list, are the table of an open addressing scheme,
and the values of the other slots tell removed ones from those never used. Every
operation is described by what it does to the list of entries.
-/

namespace Libuo.HashTable
open LinkList OpenAddressing OrderedMap

variable {K : Type} {H : KeyType K}

/-- What a search sees of an item. -/
def Item.slot (item : Item K) : Slot K :=
  match item.key with
  | some k => .live k
  | none => if item.value = tagRemoved then .removed else .empty

/-- The tag marks removed items only, and an item never used has no value. -/
def Item.Valid (item : Item K) : Prop :=
  match item.key with
  | some _ => item.value ≠ tagRemoved
  | none => item.value = tagRemoved ∨ item.value = 0

def slots (links : ℕ → Item K) (i : ℕ) : Slot K := (links i).slot

/-- The entries at the given slots. -/
def entries (links : ℕ → Item K) (ns : List ℕ) : List (K × UInt64) :=
  ns.filterMap fun i => (links i).key.map fun k => (k, (links i).value)

variable (H) in
/-- The links, the list through them and its nodes belong together. -/
structure Threaded (ring : Links Node) (links : ℕ → Item K) (capacity : ℕ) (ns : List ℕ) :
    Prop where
  table : Table H capacity (slots links) ns
  valid : ∀ i, (links i).Valid
  isRing : Ring ring .head (ns.map .slot)
  free : ∀ i ∉ ns, ring.next (.slot i) = none

variable {ring : Links Node} {links : ℕ → Item K} {capacity : ℕ} {ns : List ℕ} {k : K}
  {v : UInt64} {i e : ℕ}

theorem skips_eq (item : Item K) (h : item.Valid) (k : K) :
    skips H item k = !item.slot.stops H k := by
  obtain ⟨key, value⟩ := item
  cases key with
  | some k' =>
    have h : value ≠ tagRemoved := h
    simp [skips, Item.slot, Slot.stops, h]
  | none =>
    have h : value = tagRemoved ∨ value = 0 := h
    rcases h with rfl | rfl
    · simp [skips, Item.slot, Slot.stops]
    · have : (0 : UInt64) ≠ tagRemoved := by decide
      simp [skips, Item.slot, Slot.stops, this]

/-- The loop of the code is the search of the scheme. -/
theorem findLoop_eq (hvalid : ∀ i, (links i).Valid) {fuel d : ℕ}
    (hd : 2 ^ e + d + fuel < 2 ^ 64) :
    findLoop H links (2 ^ e - 1) k fuel ((H.hash k).toNat % 2 ^ e + d) =
      match search H (2 ^ e) (slots links) k fuel d with
      | some i => .ok i
      | none => .error .probe := by
  induction fuel generalizing d with
  | zero => rfl
  | succ fuel ih =>
    have hplace : ((H.hash k).toNat % 2 ^ e + d) &&& (2 ^ e - 1) = place H (2 ^ e) k d := by
      rw [Nat.and_two_pow_sub_one_eq_mod, place, Nat.add_mod, Nat.mod_mod, ← Nat.add_mod]
    have hlt := Nat.mod_lt (H.hash k).toNat (Nat.two_pow_pos e)
    have hstep : ((H.hash k).toNat % 2 ^ e + d + 1) % 2 ^ 64 =
        (H.hash k).toNat % 2 ^ e + (d + 1) := by
      rw [Nat.mod_eq_of_lt (by omega), Nat.add_assoc]
    rw [findLoop, hplace, skips_eq _ (hvalid _), hstep, search, ih (by omega)]
    have hslot : slots links (place H (2 ^ e) k d) = (links (place H (2 ^ e) k d)).slot := rfl
    rw [hslot]
    cases (links (place H (2 ^ e) k d)).slot.stops H k <;> rfl

theorem findLink_eq (hvalid : ∀ i, (links i).Valid) (he : e < 63) :
    findLink H links (2 ^ e) k =
      match search H (2 ^ e) (slots links) k (2 ^ e) 0 with
      | some i => .ok i
      | none => .error .probe := by
  have hpow : 2 ^ e < 2 ^ 63 := Nat.pow_lt_pow_right (by omega) he
  have hpos := Nat.two_pow_pos e
  have hmask : (2 ^ e + (2 ^ 64 - 1)) % 2 ^ 64 = 2 ^ e - 1 := by omega
  rw [findLink]
  simp only [hmask, Nat.and_two_pow_sub_one_eq_mod]
  exact findLoop_eq (d := 0) (e := e) hvalid (by omega)

/-- A search in a table that is not full. -/
theorem Threaded.findLink (h : Threaded H ring links (2 ^ e) ns) (he : e < 63)
    (hlt : ns.length + OpenAddressing.removedCount (2 ^ e) (slots links) < 2 ^ e) (k : K) :
    ∃ i < 2 ^ e, HashTable.findLink H links (2 ^ e) k = .ok i ∧
      ((i ∈ ns ∧ ∃ k', (links i).key = some k' ∧ H.equals k' k = true) ∨
        ((links i).key = none ∧ (links i).value = 0 ∧
          Reaches H (2 ^ e) (slots links) k i ∧
          ∀ j ∈ ns, ∀ k', slots links j = .live k' → H.equals k' k = false)) := by
  obtain ⟨i, hi, hs, hcases⟩ := h.table.search (h.table.exists_empty hlt) k
  refine ⟨i, hi, by rw [findLink_eq h.valid he, hs], ?_⟩
  have hvalid := h.valid i
  rcases hcases with ⟨hns, k', hk', heq⟩ | ⟨hempty, hreach, hnew⟩
  · refine .inl ⟨hns, k', ?_, heq⟩
    unfold slots Item.slot at hk'
    cases hkey : (links i).key with
    | some k'' => simpa [hkey] using hk'
    | none =>
      simp only [hkey] at hk'
      split at hk' <;> nomatch hk'
  · unfold slots Item.slot at hempty
    unfold Item.Valid at hvalid
    cases hkey : (links i).key with
    | some k' => simp [hkey] at hempty
    | none =>
      simp only [hkey] at hempty hvalid
      have hne : (links i).value ≠ tagRemoved := by
        intro h
        simp [h] at hempty
      exact .inr ⟨rfl, hvalid.resolve_left hne, hreach, hnew⟩

private theorem slots_update (links : ℕ → Item K) (i : ℕ) (item : Item K) :
    slots (Function.update links i item) = Function.update (slots links) i item.slot := by
  funext j
  by_cases hji : j = i
  · subst hji
    simp [slots]
  · simp [slots, hji]

private theorem valid_update (item : Item K) (h : ∀ i, (links i).Valid) (hitem : item.Valid)
    (i j : ℕ) : (Function.update links i item j).Valid := by
  by_cases hji : j = i
  · subst hji
    simpa using hitem
  · simpa [hji] using h j

theorem entries_update_of_not_mem (hi : i ∉ ns) (item : Item K) :
    entries (Function.update links i item) ns = entries links ns := by
  refine List.filterMap_congr fun j hj => ?_
  rw [Function.update_of_ne fun he : j = i => hi (he ▸ hj)]

theorem Threaded.key_of_mem (h : Threaded H ring links capacity ns) (hi : i ∈ ns) :
    i < capacity ∧ ∃ k, (links i).key = some k ∧ slots links i = .live k := by
  obtain ⟨hlt, k, hk⟩ := (h.table.live i).mp hi
  refine ⟨hlt, k, ?_, hk⟩
  unfold slots Item.slot at hk
  cases hkey : (links i).key with
  | some k' => simpa [hkey] using hk
  | none =>
    simp only [hkey] at hk
    split at hk <;> nomatch hk

theorem Threaded.length_entries (h : Threaded H ring links capacity ns) :
    (entries links ns).length = ns.length := by
  suffices ∀ l : List ℕ, (∀ i ∈ l, i ∈ ns) → (entries links l).length = l.length from
    this ns fun _ => id
  intro l hl
  induction l with
  | nil => rfl
  | cons i l ih =>
    obtain ⟨-, k, hk, -⟩ := h.key_of_mem (hl i (by simp))
    rw [entries] at ih ⊢
    simp [hk, ih fun j hj => hl j (by simp [hj])]

theorem mem_entries {e : K × UInt64} : e ∈ entries links ns ↔
    ∃ i ∈ ns, (links i).key = some e.1 ∧ (links i).value = e.2 := by
  simp only [entries, List.mem_filterMap, Option.map_eq_some_iff]
  constructor
  · rintro ⟨i, hi, k, hk, rfl⟩
    exact ⟨i, hi, hk, rfl⟩
  · rintro ⟨i, hi, hk, hv⟩
    exact ⟨i, hi, e.1, hk, by rw [hv]⟩

theorem Threaded.distinct (h : Threaded H ring links capacity ns) :
    Distinct H.toKeyEq (entries links ns) := by
  rw [Distinct, entries, List.pairwise_filterMap]
  refine List.Pairwise.imp_of_mem (fun {i j} hi hj hij => ?_) h.table.nodup
  rintro e he e' he'
  obtain ⟨k, hk, rfl⟩ := Option.map_eq_some_iff.mp he
  obtain ⟨k', hk', rfl⟩ := Option.map_eq_some_iff.mp he'
  by_contra hne
  have hslot {n : ℕ} {l : K} (hl : (links n).key = some l) : slots links n = .live l := by
    simp [slots, Item.slot, hl]
  exact hij (h.table.inj i hi j hj k k' (hslot hk) (hslot hk') (by simpa using hne))

/-- An entry is found under every key that equals its own. -/
theorem Threaded.get_entries (h : Threaded H ring links capacity ns) (hi : i ∈ ns) {k' : K}
    (hk : (links i).key = some k') (heq : H.equals k' k = true) :
    OrderedMap.get H.toKeyEq (entries links ns) k = some (links i).value :=
  h.distinct.get_of_mem (e := (k', (links i).value)) (mem_entries.mpr ⟨i, hi, hk, rfl⟩) heq

theorem get_entries_none
    (hnew : ∀ j ∈ ns, ∀ k', slots links j = .live k' → H.equals k' k = false) :
    OrderedMap.get H.toKeyEq (entries links ns) k = none := by
  rw [← Option.not_isSome_iff_eq_none, get_isSome]
  rintro ⟨e, he, heq⟩
  obtain ⟨j, hj, hk, -⟩ := mem_entries.mp he
  have := hnew j hj e.1 (by simp [slots, Item.slot, hk])
  simp [heq] at this

/-- A new item comes last. -/
theorem Threaded.insert (h : Threaded H ring links capacity ns) (hi : i < capacity)
    (hkey : (links i).key = none) (hvalue : (links i).value = 0)
    (hreach : Reaches H capacity (slots links) k i)
    (hnew : ∀ j ∈ ns, ∀ k', slots links j = .live k' → H.equals k' k = false)
    (hv : v ≠ tagRemoved) :
    ∃ ring', ring.link .head (.slot i) = some ring' ∧
      Threaded H ring' (Function.update links i ⟨some k, v⟩) capacity (ns ++ [i]) ∧
      entries (Function.update links i ⟨some k, v⟩) (ns ++ [i]) = entries links ns ++ [(k, v)] ∧
      OpenAddressing.removedCount capacity (slots (Function.update links i ⟨some k, v⟩)) =
        OpenAddressing.removedCount capacity (slots links) := by
  have hempty : slots links i = .empty := by
    have : (0 : UInt64) ≠ tagRemoved := by decide
    simp [slots, Item.slot, hkey, hvalue, this]
  have hni : i ∉ ns := fun hm => by
    obtain ⟨-, k', hk', -⟩ := h.key_of_mem hm
    simp [hkey] at hk'
  obtain ⟨ring', hlink, hring, hframe⟩ := h.isRing.link (n := .slot i) (by simp [hni])
    (h.free i hni)
  have hslots : slots (Function.update links i ⟨some k, v⟩) =
      Function.update (slots links) i (.live k) := slots_update links i _
  refine ⟨ring', hlink, ⟨?_, valid_update ⟨some k, v⟩ h.valid hv i, by simpa using hring, ?_⟩,
    ?_, ?_⟩
  · rw [hslots]
    exact h.table.put hi hempty hreach hnew
  · intro j hj
    simp only [List.mem_append, List.mem_singleton, not_or] at hj
    rw [(hframe (.slot j) (by simp [hj.1, hj.2])).1]
    exact h.free j hj.1
  · rw [entries, List.filterMap_append]
    congr 1
    · exact entries_update_of_not_mem hni _
    · simp
  · rw [hslots, removedCount_put hempty]

/-- A present key gets a new value in its place. -/
theorem Threaded.overwrite (h : Threaded H ring links capacity ns) (hi : i ∈ ns) {k' : K}
    (hk : (links i).key = some k') (heq : H.equals k' k = true) (hv : v ≠ tagRemoved) :
    Threaded H ring (Function.update links i { links i with value := v }) capacity ns ∧
      entries (Function.update links i { links i with value := v }) ns =
        OrderedMap.set H.toKeyEq (entries links ns) k v ∧
      slots (Function.update links i { links i with value := v }) = slots links := by
  have hslots : slots (Function.update links i { links i with value := v }) = slots links := by
    rw [slots_update]
    conv_rhs => rw [← Function.update_eq_self i (slots links)]
    simp [slots, Item.slot, hk]
  refine ⟨⟨hslots ▸ h.table, valid_update _ h.valid ?_ i, h.isRing, h.free⟩, ?_, hslots⟩
  · simpa [Item.Valid, hk] using hv
  · rw [OrderedMap.set, h.get_entries hi hk heq]
    simp only [Option.isSome_some, if_true, entries, List.map_filterMap]
    refine List.filterMap_congr fun j hj => ?_
    obtain ⟨-, l, hl, hslot⟩ := h.key_of_mem hj
    by_cases hji : j = i
    · subst hji
      obtain rfl : k' = l := by simpa [hk] using hl
      simp [hk, heq]
    · have hne : H.equals l k ≠ true := fun he =>
        hji (h.table.inj j hj i hi l k' hslot (by simp [slots, Item.slot, hk])
          (H.trans he (H.symm heq)))
      simp [hji, hl, hne]

/-- A removed item leaves the list, and its slot is marked. -/
theorem Threaded.erase (h : Threaded H ring links capacity ns) (hi : i ∈ ns) {k' : K}
    (hk : (links i).key = some k') (heq : H.equals k' k = true) :
    ∃ ring', ring.unlink (.slot i) = some ring' ∧
      Threaded H ring' (Function.update links i ⟨none, tagRemoved⟩) capacity (ns.erase i) ∧
      entries (Function.update links i ⟨none, tagRemoved⟩) (ns.erase i) =
        OrderedMap.remove H.toKeyEq (entries links ns) k ∧
      OpenAddressing.removedCount capacity (slots (Function.update links i ⟨none, tagRemoved⟩)) =
        OpenAddressing.removedCount capacity (slots links) + 1 := by
  have hslots : slots (Function.update links i ⟨none, tagRemoved⟩) =
      Function.update (slots links) i .removed := by
    rw [slots_update]
    simp [Item.slot]
  have hlive : slots links i = .live k' := by simp [slots, Item.slot, hk]
  have hlt := (h.key_of_mem hi).1
  obtain ⟨ns₁, ns₂, rfl, hni⟩ := List.eq_append_cons_of_mem hi
  have herase : (ns₁ ++ i :: ns₂).erase i = ns₁ ++ ns₂ := by
    rw [List.erase_append_right _ hni, List.erase_cons_head]
  have hnodup := h.table.nodup
  have hni₂ : i ∉ ns₂ := by
    rw [List.nodup_append] at hnodup
    exact (List.nodup_cons.mp hnodup.2.1).1
  have hisRing : Ring ring .head (ns₁.map .slot ++ .slot i :: ns₂.map .slot) := by
    simpa using h.isRing
  obtain ⟨ring', hun, hring, hnone, hframe⟩ := hisRing.unlink
  refine ⟨ring', hun, ⟨?_, valid_update ⟨none, tagRemoved⟩ h.valid (Or.inl rfl) i, ?_, ?_⟩, ?_, ?_⟩
  · rw [hslots]
    exact h.table.del i
  · rw [herase]
    simpa using hring
  · intro j hj
    rw [herase] at hj
    by_cases hji : j = i
    · exact hji ▸ hnone
    · have hj' : j ∉ ns₁ ++ i :: ns₂ := by
        simp only [List.mem_append, List.mem_cons, not_or] at hj ⊢
        exact ⟨hj.1, hji, hj.2⟩
      rw [(hframe (.slot j) (by simpa using hj')).1]
      exact h.free j hj'
  · rw [herase, entries_update_of_not_mem (by simp [hni, hni₂]), OrderedMap.remove]
    have hkeep (l : List ℕ) (hl : ∀ j ∈ l, j ∈ ns₁ ++ i :: ns₂ ∧ j ≠ i) :
        (entries links l).filter (fun e => !H.equals e.1 k) = entries links l := by
      refine List.filter_eq_self.mpr fun e he => ?_
      obtain ⟨j, hj, hkey, -⟩ := mem_entries.mp he
      by_contra hne
      have hek : H.equals e.1 k = true := by simpa using hne
      exact (hl j hj).2 (h.table.inj j (hl j hj).1 i hi e.1 k' (by simp [slots, Item.slot, hkey])
        hlive (H.trans hek (H.symm heq)))
    have hsplit : entries links (ns₁ ++ i :: ns₂) =
        entries links ns₁ ++ (k', (links i).value) :: entries links ns₂ := by
      simp [entries, hk]
    rw [hsplit, List.filter_append, List.filter_cons_of_neg (by simp [heq]), hkeep ns₁, hkeep ns₂]
    · simp [entries]
    · exact fun j hj => ⟨by simp [hj], fun he => hni₂ (he ▸ hj)⟩
    · exact fun j hj => ⟨by simp [hj], fun he => hni (he ▸ hj)⟩
  · rw [hslots, removedCount_del hlt hlive]

theorem threaded_create (hpos : 0 < capacity) :
    Threaded H (Links.zero.selflink .head) (fun _ => ⟨none, 0⟩) capacity [] := by
  have hempty (i : ℕ) : slots (fun _ : ℕ => (⟨none, 0⟩ : Item K)) i = .empty := by
    have : (0 : UInt64) ≠ tagRemoved := by decide
    simp [slots, Item.slot, this]
  refine ⟨table_empty hpos hempty, fun _ => .inr rfl, ring_selflink _ _, fun i _ => ?_⟩
  simp [Links.selflink, Links.setNext, Links.setPrev, Links.zero]

theorem removedCount_create (capacity : ℕ) :
    OpenAddressing.removedCount capacity (slots fun _ : ℕ => (⟨none, 0⟩ : Item K)) = 0 := by
  refine removedCount_empty fun i => ?_
  have : (0 : UInt64) ≠ tagRemoved := by decide
  simp [slots, Item.slot, this]

/-- The loop copies the entries behind the old nodes `rest` to the new links. -/
theorem resizeLoop_spec {old : Links Node} {oldLinks : ℕ → Item K} (he : e < 63)
    (rest : List ℕ) {first : Option Node} (hfirst : ∀ i ∈ rest.head?, first = some (.slot i))
    (hchain : (rest.map Node.slot).IsChain (Linked old))
    (hitems : ∀ i ∈ rest, ∃ k v, oldLinks i = ⟨some k, v⟩ ∧ v ≠ tagRemoved)
    (h : Threaded H ring links (2 ^ e) ns)
    (hremoved : OpenAddressing.removedCount (2 ^ e) (slots links) = 0)
    (hdistinct : Distinct H.toKeyEq (entries links ns ++ entries oldLinks rest))
    (hlt : ns.length + rest.length < 2 ^ e) :
    ∃ links' ring' ns',
      resizeLoop H old oldLinks (2 ^ e) rest.length first (links, ring) = .ok (links', ring') ∧
      Threaded H ring' links' (2 ^ e) ns' ∧
      entries links' ns' = entries links ns ++ entries oldLinks rest ∧
      OpenAddressing.removedCount (2 ^ e) (slots links') = 0 := by
  induction rest generalizing first links ring ns with
  | nil => exact ⟨links, ring, ns, rfl, h, by simp [entries], hremoved⟩
  | cons i rest ih =>
    obtain ⟨k, v, hitem, hv⟩ := hitems i (by simp)
    have hsplit : entries oldLinks (i :: rest) = (k, v) :: entries oldLinks rest := by
      simp [entries, hitem]
    rw [List.length_cons] at hlt
    rw [hsplit] at hdistinct ⊢
    obtain ⟨j, hj, hfind, hcases⟩ := h.findLink he (by omega) k
    rcases hcases with ⟨hjns, k', hk', heq⟩ | ⟨hkey, hvalue, hreach, hnew⟩
    · -- no two entries of the old table have equal keys
      have hmem : (k', (links j).value) ∈ entries links ns := mem_entries.mpr ⟨j, hjns, hk', rfl⟩
      have := (List.pairwise_append.mp hdistinct).2.2 _ hmem (k, v) (by simp)
      simp [heq] at this
    · obtain ⟨ring', hlink, h', hentries, hcount⟩ := h.insert hj hkey hvalue hreach hnew hv
      have hnext : ∀ n ∈ rest.head?, old.next (.slot i) = some (.slot n) := by
        intro n hn
        cases rest with
        | nil => simp at hn
        | cons m rest =>
          obtain rfl : m = n := by simpa using hn
          exact (List.isChain_cons_cons.mp hchain).1.1
      obtain ⟨links'', ring'', ns'', hloop, h'', hentries', hcount'⟩ := ih hnext hchain.tail
        (fun n hn => hitems n (by simp [hn])) h' (hcount.trans hremoved)
        (by rw [hentries]; simpa using hdistinct) (by simp; omega)
      refine ⟨links'', ring'', ns'', ?_, h'', by rw [hentries', hentries]; simp, hcount'⟩
      rw [hfirst i (by simp), List.length_cons, resizeLoop, hitem]
      change (HashTable.findLink H links (2 ^ e) k >>= _) = _
      rw [hfind]
      change (orFault (ring.link .head (.slot j)) >>= _) = _
      rw [hlink]
      exact hloop

theorem resize_spec {t : Hashtbl K} (h : Threaded H t.ring t.links t.capacity ns)
    (hcount : t.count = ns.length) (hlt : ns.length < 2 ^ e) :
    resize H t (2 ^ e) = .error .alloc ∨ ∃ t' ns', resize H t (2 ^ e) = .ok t' ∧
      t'.capacity = 2 ^ e ∧ 2 ^ e * 32 < 2 ^ 64 ∧ t'.count = t.count ∧
      Threaded H t'.ring t'.links (2 ^ e) ns' ∧ entries t'.links ns' = entries t.links ns ∧
      OpenAddressing.removedCount (2 ^ e) (slots t'.links) = 0 := by
  by_cases hbytes : 2 ^ e * 32 < 2 ^ 64
  · refine .inr ?_
    have he : e < 63 := by
      have : 2 ^ e < 2 ^ 63 := by omega
      exact (Nat.pow_lt_pow_iff_right (by omega)).mp this
    obtain ⟨old, hunlink, hchain⟩ : ∃ old, t.ring.unlink .head = some old ∧
        (ns.map Node.slot).IsChain (Linked old) := by
      have hring := h.isRing
      cases ns with
      | nil =>
        obtain ⟨old, hun, -⟩ := Ring.unlink_alone hring
        exact ⟨old, hun, by simp⟩
      | cons i ns =>
        obtain ⟨old, hun, hring', -⟩ := Ring.unlink_head hring
        have := hring'.chain
        rw [← List.cons_append] at this
        exact ⟨old, hun, this.left_of_append⟩
    have hfirst : ∀ i ∈ ns.head?, t.ring.next .head = some (.slot i) := by
      intro i hi
      have hring := h.isRing
      cases ns with
      | nil => simp at hi
      | cons n ns =>
        obtain rfl : n = i := by simpa using hi
        exact (List.isChain_cons_cons.mp hring.chain).1.1
    have hitems : ∀ i ∈ ns, ∃ k v, t.links i = ⟨some k, v⟩ ∧ v ≠ tagRemoved := by
      intro i hi
      obtain ⟨-, k, hk, -⟩ := h.key_of_mem hi
      have hvalid := h.valid i
      unfold Item.Valid at hvalid
      rw [hk] at hvalid
      exact ⟨k, (t.links i).value, by rw [← hk], hvalid⟩
    obtain ⟨links', ring', ns', hloop, h', hentries, hremoved⟩ :=
      resizeLoop_spec he ns hfirst hchain
      hitems (threaded_create (Nat.two_pow_pos e)) (removedCount_create _)
      (by simpa [entries] using h.distinct) (by simpa using hlt)
    refine ⟨{ t with capacity := 2 ^ e, links := links', ring := ring' }, ns', ?_, rfl, hbytes, rfl,
      h', by simpa [entries] using hentries, hremoved⟩
    rw [resize, calloc, if_pos hbytes, hunlink, hcount]
    change (resizeLoop H old t.links (2 ^ e) ns.length (t.ring.next .head) _ >>= _) = _
    rw [hloop]
    rfl
  · refine .inl ?_
    rw [resize, calloc, if_neg hbytes]
    rfl

end Libuo.HashTable
