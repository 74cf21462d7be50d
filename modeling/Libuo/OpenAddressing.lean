import Libuo.OrderedMap
import Mathlib.Data.Finset.Card
import Mathlib.Data.Finset.Range
import Mathlib.Data.List.Nodup
import Mathlib.Logic.Function.Basic
import Mathlib.Tactic.Common

/-!
# Open addressing with linear probing

Keys are compared by an equality that the hash function respects. A slot is empty,
holds a key, or held one that has been removed. A search walks from the slot of the
hash over everything that is not empty, so a key is found as long as no slot on the
way to it becomes empty again.
-/

namespace Libuo.OpenAddressing
open OrderedMap

/-- A type of keys with a hash function that respects their equality. -/
structure KeyType (K : Type) extends KeyEq K where
  hash : K → UInt64
  hash_eq : ∀ {k k'}, equals k k' = true → hash k = hash k'

inductive Slot (K : Type) where
  | empty
  | removed
  | live (k : K)

variable {K : Type} (H : KeyType K)

/-- A search for the key ends at this slot. -/
def Slot.stops : Slot K → K → Bool
  | .empty, _ => true
  | .removed, _ => false
  | .live k', k => H.equals k' k

def Slot.isEmpty : Slot K → Bool
  | .empty => true
  | .removed | .live _ => false

def Slot.isRemoved : Slot K → Bool
  | .removed => true
  | .empty | .live _ => false

@[simp] theorem Slot.isRemoved_removed : (Slot.removed : Slot K).isRemoved = true := rfl

@[simp] theorem Slot.isRemoved_empty : (Slot.empty : Slot K).isRemoved = false := rfl

@[simp] theorem Slot.isRemoved_live (k : K) : (Slot.live k).isRemoved = false := rfl

/-- The slot at a distance from that of the hash. -/
def place (cap : ℕ) (k : K) (d : ℕ) : ℕ := ((H.hash k).toNat + d) % cap

/-- The search from distance `d` on, over as many slots as the fuel allows. -/
def search (cap : ℕ) (slots : ℕ → Slot K) (k : K) : ℕ → ℕ → Option ℕ
  | 0, _ => none
  | fuel + 1, d =>
    if (slots (place H cap k d)).stops H k then some (place H cap k d)
    else search cap slots k fuel (d + 1)

/-- A search for the key gets as far as this slot. -/
def Reaches (cap : ℕ) (slots : ℕ → Slot K) (k : K) (i : ℕ) : Prop :=
  ∃ d, place H cap k d = i ∧ ∀ d' < d, (slots (place H cap k d')).isEmpty = false

/-- A table whose live slots are `ns`. -/
structure Table (cap : ℕ) (slots : ℕ → Slot K) (ns : List ℕ) : Prop where
  pos : 0 < cap
  nodup : ns.Nodup
  live : ∀ i, i ∈ ns ↔ i < cap ∧ ∃ k, slots i = .live k
  inj : ∀ i ∈ ns, ∀ j ∈ ns, ∀ k k', slots i = .live k → slots j = .live k' →
    H.equals k k' = true → i = j
  reach : ∀ i ∈ ns, ∀ k, slots i = .live k → Reaches H cap slots k i

/-- The number of slots that have been removed. -/
def removedCount (cap : ℕ) (slots : ℕ → Slot K) : ℕ :=
  ((Finset.range cap).filter fun i => (slots i).isRemoved).card

variable {H} {cap : ℕ} {slots : ℕ → Slot K} {ns : List ℕ} {k k' : K} {i n d : ℕ}

theorem place_lt (hpos : 0 < cap) (k : K) (d : ℕ) : place H cap k d < cap := Nat.mod_lt _ hpos

theorem place_congr (h : H.equals k k' = true) : place H cap k d = place H cap k' d := by
  rw [place, place, H.hash_eq h]

/-- Every slot is at some distance less than the capacity. -/
theorem exists_place (hi : i < cap) (k : K) : ∃ d < cap, place H cap k d = i := by
  have hlt := Nat.mod_lt (H.hash k).toNat (Nat.zero_lt_of_lt hi)
  rcases Nat.lt_or_ge i ((H.hash k).toNat % cap) with hle | hle
  · refine ⟨i + cap - (H.hash k).toNat % cap, by omega, ?_⟩
    rw [place, Nat.add_mod, Nat.mod_eq_of_lt (show i + cap - (H.hash k).toNat % cap < cap by omega),
      show (H.hash k).toNat % cap + (i + cap - (H.hash k).toNat % cap) = i + cap by omega,
      Nat.add_mod_right, Nat.mod_eq_of_lt hi]
  · refine ⟨i - (H.hash k).toNat % cap, by omega, ?_⟩
    rw [place, Nat.add_mod, Nat.mod_eq_of_lt (show i - (H.hash k).toNat % cap < cap by omega),
      show (H.hash k).toNat % cap + (i - (H.hash k).toNat % cap) = i by omega, Nat.mod_eq_of_lt hi]

/-- The search ends at the first slot where it may. -/
theorem search_first (hstop : (slots (place H cap k (d + n))).stops H k = true) {fuel : ℕ}
    (hfuel : n < fuel) : ∃ m ≤ n, search H cap slots k fuel d = some (place H cap k (d + m)) ∧
      (slots (place H cap k (d + m))).stops H k = true ∧
      ∀ m' < m, (slots (place H cap k (d + m'))).stops H k = false := by
  induction fuel generalizing n d with
  | zero => omega
  | succ fuel ih =>
    by_cases h : (slots (place H cap k d)).stops H k = true
    · exact ⟨0, Nat.zero_le _, by rw [search, if_pos h, Nat.add_zero], h, by omega⟩
    · cases n with
      | zero => exact absurd hstop h
      | succ n =>
        obtain ⟨m, hm, hs, hend, hbefore⟩ := ih (n := n) (d := d + 1)
          (by rwa [Nat.add_assoc, Nat.add_comm 1]) (by omega)
        refine ⟨m + 1, by omega, by rw [search, if_neg h, hs, Nat.add_assoc, Nat.add_comm 1],
          by rwa [Nat.add_comm m, ← Nat.add_assoc], fun m' hm' => ?_⟩
        cases m' with
        | zero => simpa using h
        | succ m' => simpa [Nat.add_assoc, Nat.add_comm 1] using hbefore m' (by omega)

/-- What a search in a table with an empty slot returns within `cap` steps. -/
theorem Table.search (ht : Table H cap slots ns) (hempty : ∃ i < cap, slots i = .empty) (k : K) :
    ∃ i < cap, search H cap slots k cap 0 = some i ∧
      ((i ∈ ns ∧ ∃ k', slots i = .live k' ∧ H.equals k' k = true) ∨
        (slots i = .empty ∧ Reaches H cap slots k i ∧
          ∀ j ∈ ns, ∀ k', slots j = .live k' → H.equals k' k = false)) := by
  obtain ⟨e, he, hslot⟩ := hempty
  obtain ⟨n, hn, rfl⟩ := exists_place (H := H) he k
  have hstop : (slots (place H cap k (0 + n))).stops H k = true := by
    rw [Nat.zero_add, hslot]
    rfl
  obtain ⟨m, hm, hs, hend, hbefore⟩ := search_first hstop hn
  simp only [Nat.zero_add] at hs hend hbefore
  refine ⟨place H cap k m, place_lt ht.pos k m, hs, ?_⟩
  cases hi : slots (place H cap k m) with
  | removed => simp [hi, Slot.stops] at hend
  | live k' =>
    rw [hi] at hend
    exact .inl ⟨(ht.live _).mpr ⟨place_lt ht.pos k m, k', hi⟩, k', rfl, hend⟩
  | empty =>
    have hpath : ∀ d < m, (slots (place H cap k d)).isEmpty = false := by
      intro d hd
      have hstop := hbefore d hd
      cases hsd : slots (place H cap k d) with
      | empty => simp [hsd, Slot.stops] at hstop
      | removed | live => rfl
    refine .inr ⟨rfl, ⟨m, rfl, hpath⟩, fun j hj k' hk' => ?_⟩
    by_contra hne
    have heq : H.equals k' k = true := by simpa using hne
    -- the way to the key would lead over the empty slot, or the search would have ended there
    obtain ⟨d, hd, hway⟩ := ht.reach j hj k' hk'
    rw [place_congr heq] at hd
    rcases Nat.lt_trichotomy d m with hlt | rfl | hgt
    · have := hbefore d hlt
      rw [hd, hk'] at this
      simp [Slot.stops, heq] at this
    · rw [hd, hk'] at hi
      nomatch hi
    · have := hway m hgt
      rw [place_congr heq, hi] at this
      nomatch this

theorem table_empty (hpos : 0 < cap) (hslots : ∀ i, slots i = .empty) : Table H cap slots [] := by
  refine ⟨hpos, List.nodup_nil, fun i => ?_, by simp, by simp⟩
  simp [hslots]

private theorem Reaches.update {o : Slot K} (h : Reaches H cap slots k i) (ho : o.isEmpty = false)
    (n : ℕ) : Reaches H cap (Function.update slots n o) k i := by
  obtain ⟨d, hd, hway⟩ := h
  refine ⟨d, hd, fun d' hd' => ?_⟩
  by_cases hn : place H cap k d' = n
  · rwa [hn, Function.update_self]
  · rw [Function.update_of_ne hn]
    exact hway d' hd'

/-- A new key is put into the empty slot where its search has ended. -/
theorem Table.put (ht : Table H cap slots ns) (hi : i < cap) (hempty : slots i = .empty)
    (hreach : Reaches H cap slots k i)
    (hnew : ∀ j ∈ ns, ∀ k', slots j = .live k' → H.equals k' k = false) :
    Table H cap (Function.update slots i (.live k)) (ns ++ [i]) := by
  have hni : i ∉ ns := fun hm => by
    obtain ⟨-, k', hk'⟩ := (ht.live i).mp hm
    rw [hempty] at hk'
    nomatch hk'
  have hother : ∀ j ∈ ns, Function.update slots i (.live k) j = slots j := fun j hj =>
    Function.update_of_ne (fun he : j = i => hni (he ▸ hj)) _ _
  have hcases {j : ℕ} (hj : j ∈ ns ++ [i]) : j ∈ ns ∨ j = i := by simpa using hj
  refine ⟨ht.pos, ?_, fun j => ?_, fun j hj j' hj' k₁ k₂ h₁ h₂ he => ?_, fun j hj k₁ h₁ => ?_⟩
  · simp only [List.nodup_append, ht.nodup, List.nodup_singleton, List.mem_singleton, true_and]
    rintro a ha _ rfl rfl
    exact hni ha
  · by_cases hji : j = i
    · subst hji
      simp [hi]
    · rw [List.mem_append, List.mem_singleton, or_iff_left hji, ht.live j,
        Function.update_of_ne hji]
  · rcases hcases hj with hm | hm <;> rcases hcases hj' with hm' | hm'
    · rw [hother j hm] at h₁
      rw [hother j' hm'] at h₂
      exact ht.inj j hm j' hm' k₁ k₂ h₁ h₂ he
    · rw [hother j hm] at h₁
      rw [hm', Function.update_self, Slot.live.injEq] at h₂
      subst h₂
      simp [hnew j hm k₁ h₁] at he
    · rw [hother j' hm'] at h₂
      rw [hm, Function.update_self, Slot.live.injEq] at h₁
      subst h₁
      have := H.symm he
      simp [hnew j' hm' k₂ h₂] at this
    · exact hm.trans hm'.symm
  · rcases hcases hj with hm | rfl
    · rw [hother j hm] at h₁
      exact (ht.reach j hm k₁ h₁).update rfl i
    · rw [Function.update_self, Slot.live.injEq] at h₁
      exact h₁ ▸ hreach.update rfl j

theorem Table.del (ht : Table H cap slots ns) (i : ℕ) :
    Table H cap (Function.update slots i .removed) (ns.erase i) := by
  have hmem {j : ℕ} : j ∈ ns.erase i ↔ j ≠ i ∧ j ∈ ns := ht.nodup.mem_erase_iff
  have hother {j : ℕ} (hj : j ∈ ns.erase i) :
      j ∈ ns ∧ Function.update slots i .removed j = slots j :=
    ⟨(hmem.mp hj).2, Function.update_of_ne (hmem.mp hj).1 _ _⟩
  refine ⟨ht.pos, ht.nodup.erase i, fun j => ?_, fun j hj j' hj' k₁ k₂ h₁ h₂ he => ?_,
    fun j hj k₁ h₁ => ?_⟩
  · rw [hmem]
    by_cases hji : j = i
    · subst hji
      simp
    · rw [ht.live j, Function.update_of_ne hji]
      simp [hji]
  · rw [(hother hj).2] at h₁
    rw [(hother hj').2] at h₂
    exact ht.inj j (hother hj).1 j' (hother hj').1 k₁ k₂ h₁ h₂ he
  · rw [(hother hj).2] at h₁
    exact (ht.reach j (hother hj).1 k₁ h₁).update rfl i

theorem removedCount_empty (hslots : ∀ i, slots i = .empty) : removedCount cap slots = 0 := by
  simp [removedCount, hslots]

theorem removedCount_put (hempty : slots i = .empty) (k : K) :
    removedCount cap (Function.update slots i (.live k)) = removedCount cap slots := by
  unfold removedCount
  congr 1
  refine Finset.filter_congr fun j _ => ?_
  by_cases hji : j = i
  · subst hji
    simp [hempty]
  · rw [Function.update_of_ne hji]

theorem removedCount_del (hi : i < cap) (hlive : slots i = .live k) :
    removedCount cap (Function.update slots i .removed) = removedCount cap slots + 1 := by
  unfold removedCount
  rw [← Finset.card_insert_of_notMem (a := i) (by simp [hlive])]
  congr 1
  ext j
  by_cases hji : j = i
  · subst hji
    simp [hi]
  · simp [hji]

/-- While the live and the removed slots do not fill the table, one is empty. -/
theorem Table.exists_empty (ht : Table H cap slots ns)
    (hlt : ns.length + removedCount cap slots < cap) : ∃ i < cap, slots i = .empty := by
  by_contra hnone
  have hsub : Finset.range cap ⊆
      ns.toFinset ∪ (Finset.range cap).filter fun i => (slots i).isRemoved := by
    intro i hi
    have hi := Finset.mem_range.mp hi
    simp only [Finset.mem_union, List.mem_toFinset, Finset.mem_filter, Finset.mem_range]
    cases hs : slots i with
    | empty => exact absurd ⟨i, hi, hs⟩ hnone
    | removed => exact .inr ⟨hi, rfl⟩
    | live k => exact .inl ((ht.live i).mpr ⟨hi, k, hs⟩)
  have hcard := (Finset.card_le_card hsub).trans (Finset.card_union_le _ _)
  have hns := List.toFinset_card_le ns
  rw [Finset.card_range] at hcard
  unfold removedCount at hlt
  omega

end Libuo.OpenAddressing
