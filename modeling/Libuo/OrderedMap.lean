import Mathlib.Data.List.Basic
import Mathlib.Tactic.Common

/-!
# Maps in insertion order

A finite map as the list of its entries, the oldest first, over keys with an
equality of their own.
-/

namespace Libuo.OrderedMap

/-- A type of keys with its equality. -/
structure KeyEq (K : Type) where
  equals : K → K → Bool
  refl : ∀ k, equals k k = true
  symm : ∀ {k k'}, equals k k' = true → equals k' k = true
  trans : ∀ {k k' k''}, equals k k' = true → equals k' k'' = true → equals k k'' = true

variable {K V : Type} (E : KeyEq K)

def get (m : List (K × V)) (k : K) : Option V := (m.find? fun e => E.equals e.1 k).map Prod.snd

/-- A present key keeps its place, a new one comes last. -/
def set (m : List (K × V)) (k : K) (v : V) : List (K × V) :=
  if (get E m k).isSome then m.map fun e => if E.equals e.1 k then (e.1, v) else e
  else m ++ [(k, v)]

def remove (m : List (K × V)) (k : K) : List (K × V) := m.filter fun e => !E.equals e.1 k

/-- No key occurs twice. -/
def Distinct (m : List (K × V)) : Prop := m.Pairwise fun e e' => E.equals e.1 e'.1 = false

variable {E} {m : List (K × V)} {k k' : K} {v : V}

theorem KeyEq.congr (h : E.equals k k' = true) (l : K) : E.equals l k = E.equals l k' := by
  rw [Bool.eq_iff_iff]
  exact ⟨fun h' => E.trans h' h, fun h' => E.trans h' (E.symm h)⟩

theorem get_congr (h : E.equals k k' = true) : get E m k = get E m k' := by
  simp only [get, E.congr h]

@[simp] theorem get_nil (k : K) : get E ([] : List (K × V)) k = none := rfl

theorem get_cons (e : K × V) (m : List (K × V)) (k : K) :
    get E (e :: m) k = if E.equals e.1 k then some e.2 else get E m k := by
  rw [get, List.find?_cons]
  split <;> simp_all [get]

theorem get_isSome : (get E m k).isSome ↔ ∃ e ∈ m, E.equals e.1 k = true := by
  simp [get]

theorem get_remove (m : List (K × V)) (k k' : K) :
    get E (remove E m k) k' = if E.equals k k' then none else get E m k' := by
  induction m with
  | nil => simp [remove]
  | cons e m ih =>
    rw [remove] at ih ⊢
    rw [List.filter_cons, get_cons]
    by_cases he : E.equals e.1 k = true
    · simp only [he, Bool.not_true, Bool.false_eq_true, if_false, ih]
      by_cases hk : E.equals k k' = true
      · simp [hk]
      · have : E.equals e.1 k' ≠ true := fun h => hk (E.trans (E.symm he) h)
        simp [hk, this]
    · simp only [he, Bool.not_false, if_true, get_cons, ih]
      by_cases hk : E.equals k k' = true
      · have : E.equals e.1 k' ≠ true := fun h => he (E.trans h (E.symm hk))
        simp [hk, this]
      · simp [hk]

theorem remove_of_get_none (h : get E m k = none) : remove E m k = m := by
  refine List.filter_eq_self.mpr fun e he => ?_
  by_contra hne
  have : (get E m k).isSome := get_isSome.mpr ⟨e, he, by simpa using hne⟩
  simp [h] at this

private theorem get_append_single (m : List (K × V)) (k : K) (v : V) (k' : K) :
    get E (m ++ [(k, v)]) k' =
      (get E m k').or (if E.equals k k' then some v else none) := by
  induction m with
  | nil => simp [get_cons]
  | cons e m ih =>
    rw [List.cons_append, get_cons, get_cons, ih]
    split <;> simp

private theorem get_map_value (m : List (K × V)) (k : K) (v : V) (k' : K) :
    get E (m.map fun e => if E.equals e.1 k then (e.1, v) else e) k' =
      if E.equals k k' then (get E m k').map fun _ => v else get E m k' := by
  induction m with
  | nil => simp
  | cons e m ih =>
    rw [List.map_cons, get_cons, get_cons, ih]
    by_cases hk : E.equals k k' = true
    · have : E.equals e.1 k = E.equals e.1 k' := E.congr hk e.1
      by_cases he : E.equals e.1 k' = true <;> simp [hk, this, he]
    · by_cases he : E.equals e.1 k = true
      · have : E.equals e.1 k' ≠ true := fun h => hk (E.trans (E.symm he) h)
        simp [hk, he, this]
      · simp [hk, he]

theorem get_set (m : List (K × V)) (k : K) (v : V) (k' : K) :
    get E (set E m k v) k' = if E.equals k k' then some v else get E m k' := by
  unfold set
  split
  · rename_i h
    rw [get_map_value]
    split
    · rename_i hk
      rw [← get_congr hk]
      obtain ⟨w, hw⟩ := Option.isSome_iff_exists.mp h
      simp [hw]
    · rfl
  · rename_i h
    rw [get_append_single]
    split
    · rename_i hk
      rw [← get_congr hk, Option.not_isSome_iff_eq_none.mp h]
      rfl
    · simp

theorem Distinct.get_of_mem {e : K × V} (h : Distinct E m) (he : e ∈ m)
    (hk : E.equals e.1 k = true) : get E m k = some e.2 := by
  induction m with
  | nil => simp at he
  | cons e' m ih =>
    obtain ⟨hhead, htail⟩ := List.pairwise_cons.mp h
    rw [get_cons]
    rcases List.mem_cons.mp he with rfl | he
    · rw [if_pos hk]
    · have : E.equals e'.1 k ≠ true := fun h' => by
        have := E.trans h' (E.symm hk)
        simp [hhead e he] at this
      rw [if_neg this, ih htail he]

theorem filter_of_get_none (h : get E m k = none) : m.filter (E.equals ·.1 k) = [] := by
  refine List.filter_eq_nil_iff.mpr fun e he hk => ?_
  have : (get E m k).isSome := get_isSome.mpr ⟨e, he, hk⟩
  simp [h] at this

/-- A present key has one entry. -/
theorem Distinct.map_filter (h : Distinct E m) (hget : get E m k = some v) :
    (m.filter (E.equals ·.1 k)).map Prod.snd = [v] := by
  induction m with
  | nil => simp at hget
  | cons e m ih =>
    obtain ⟨hhead, htail⟩ := List.pairwise_cons.mp h
    rw [get_cons] at hget
    rw [List.filter_cons]
    by_cases he : E.equals e.1 k = true
    · rw [if_pos he, Option.some.injEq] at hget
      have hnone : get E m k = none := by
        refine Option.not_isSome_iff_eq_none.mp fun hsome => ?_
        obtain ⟨e', he', hk⟩ := get_isSome.mp hsome
        have := E.trans he (E.symm hk)
        simp [hhead e' he'] at this
      rw [if_pos he, filter_of_get_none hnone, List.map_cons, List.map_nil, hget]
    · rw [if_neg he] at hget
      rw [if_neg he, ih htail hget]

theorem Distinct.remove (h : Distinct E m) (k : K) : Distinct E (remove E m k) := h.filter _

theorem Distinct.set (h : Distinct E m) (k : K) (v : V) : Distinct E (set E m k v) := by
  unfold OrderedMap.set
  split
  · rw [Distinct, List.pairwise_map]
    refine h.imp fun {a b} hab => ?_
    split <;> split <;> exact hab
  · rename_i hn
    refine List.pairwise_append.mpr ⟨h, List.pairwise_singleton _ _, fun a ha b hb => ?_⟩
    rw [List.mem_singleton] at hb
    subst hb
    by_contra hne
    exact hn (get_isSome.mpr ⟨a, ha, by simpa using hne⟩)

end Libuo.OrderedMap
