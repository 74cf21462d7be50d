import Libuo.Stack

/-!
# Stacks as lists

A run of a stack against the same run of a list of pointers. The two agree as long as
the capacity that the stack is created with can be allocated; the size of a larger one
is cut off to 64 bits, and the array has no room at all.
-/

namespace Libuo.Stack
open CellArray

variable {P : Type}

inductive Op (P : Type) where
  | push (item : P)
  | pushArr (items : List P)
  | pop
  | peek
  | index (index : ℤ)
  | insert (index : ℤ) (item : P)
  | insertArr (index : ℤ) (items : List P)

/-- One operation, with the item it returns; an access outside the array fails. -/
def Op.apply (s : Stack P) : Op P → Option (Option P × Stack P)
  | .push item => do
    let s ← s.push item
    some (none, s)
  | .pushArr items => do
    let s ← s.pushArr items
    some (none, s)
  | .pop => do
    let (item, s) ← s.pop
    some (some item, s)
  | .peek => do
    let item ← s.peek
    some (some item, s)
  | .index i => do
    let item ← s.index i
    some (some item, s)
  | .insert i item => do
    let s ← s.insert i item
    some (none, s)
  | .insertArr i items => do
    let s ← s.insertArr i items
    some (none, s)

def runFrom : Stack P → List (Op P) → Option (List (Option P) × Stack P)
  | s, [] => some ([], s)
  | s, op :: ops => do
    let (item, s) ← op.apply s
    let (items, s) ← runFrom s ops
    some (item :: items, s)

/-- An operation on a list whose last item is the top. -/
def Op.onList (l : List P) : Op P → Option P × List P
  | .push item => (none, l ++ [item])
  | .pushArr items => (none, l ++ items)
  | .pop => (l.getLast?, l.dropLast)
  | .peek => (l.getLast?, l)
  | .index i => (l[place l.length i]?, l)
  | .insert i item => (none, l.take (place l.length i) ++ item :: l.drop (place l.length i))
  | .insertArr i items => (none, l.take (place l.length i) ++ items ++ l.drop (place l.length i))

def runList : List P → List (Op P) → List (Option P) × List P
  | l, [] => ([], l)
  | l, op :: ops =>
    let (items, l') := runList (op.onList l).2 ops
    ((op.onList l).1 :: items, l')

/-- An item is there to be read or removed, an index is in its range, and the stack stays
below `2 ^ 31` items. -/
def Op.Allowed (l : List P) : Op P → Prop
  | .push _ => l.length + 1 < 2 ^ 31
  | .pushArr items => l.length + items.length < 2 ^ 31
  | .pop => l ≠ []
  | .peek => l ≠ []
  | .index i => -l.length ≤ i ∧ i < l.length
  | .insert i _ => -l.length ≤ i ∧ i ≤ l.length ∧ l.length + 1 < 2 ^ 31
  | .insertArr i items => -l.length ≤ i ∧ i ≤ l.length ∧ l.length + items.length < 2 ^ 31

def AllowedFrom : List P → List (Op P) → Prop
  | _, [] => True
  | l, op :: ops => op.Allowed l ∧ AllowedFrom (op.onList l).2 ops

/-- The contents are those of the list, and the whole capacity has been allocated. -/
structure Represents (s : Stack P) (l : List P) : Prop where
  contents : s.items.take s.count = l.map some
  count : s.count = l.length
  pow : ∃ e, s.capacity = 2 ^ e
  min : minCapacity ≤ s.capacity
  le : s.count ≤ s.capacity
  allocated : s.items.length = s.capacity

variable (P) in
/-- Every run behaves as that of a list, and touches nothing outside the array. -/
def BehavesAsList (initialCapacity : ℕ) : Prop :=
  ∀ ops : List (Op P), AllowedFrom [] ops →
    ∃ s, runFrom (create initialCapacity) ops = some ((runList [] ops).1, s) ∧
      s.Represents (runList [] ops).2

variable {s : Stack P} {l : List P}

theorem Inv.represents (h : Inv s l) : s.Represents l where
  contents := h.count ▸ h.holds.take
  count := h.count
  pow := by
    obtain ⟨e, -, -, he⟩ := h.pow
    exact ⟨e, he⟩
  min := by
    obtain ⟨e, hmin, -, he⟩ := h.pow
    exact he ▸ Nat.pow_le_pow_right (n := 2) (by omega) hmin
  le := h.count ▸ h.le
  allocated := h.cells

theorem Op.apply_spec (h : Inv s l) {op : Op P} (hop : op.Allowed l) (hl : l.length < 2 ^ 31) :
    ∃ s', op.apply s = some ((op.onList l).1, s') ∧ Inv s' (op.onList l).2 ∧
      (op.onList l).2.length < 2 ^ 31 := by
  cases op with
  | push item =>
    have hop : l.length + 1 < 2 ^ 31 := hop
    obtain ⟨s', hs, h'⟩ := push_spec h (by omega) item
    exact ⟨s', by rw [Op.apply, hs]; rfl, h', by simpa [onList] using hop⟩
  | pushArr items =>
    have hop : l.length + items.length < 2 ^ 31 := hop
    obtain ⟨s', hs, h'⟩ := pushArr_spec h items (by omega)
    exact ⟨s', by rw [Op.apply, hs]; rfl, h', by simpa [onList] using hop⟩
  | pop =>
    obtain ⟨l, x, rfl⟩ := l.eq_nil_or_concat'.resolve_left hop
    obtain ⟨s', hs, h'⟩ := pop_spec h
    refine ⟨s', by rw [Op.apply, hs]; simp [onList], by simpa [onList] using h', ?_⟩
    rw [List.length_append] at hl
    simp only [onList, List.dropLast_concat]
    omega
  | peek =>
    obtain ⟨l, x, rfl⟩ := l.eq_nil_or_concat'.resolve_left hop
    exact ⟨s, by rw [Op.apply, peek_spec h]; simp [onList], h, hl⟩
  | index i =>
    obtain ⟨hneg, hpos⟩ := hop
    obtain ⟨hi, hs⟩ := index_spec h hneg hpos
    exact ⟨s, by rw [Op.apply, hs]; simp [onList, hi], h, hl⟩
  | insert i item =>
    obtain ⟨hneg, hpos, hroom⟩ := hop
    have hle := place_le hneg hpos
    obtain ⟨s', hs, h'⟩ := insert_spec h (by omega) hneg hpos (by omega) item
    refine ⟨s', by rw [Op.apply, hs]; rfl, h', ?_⟩
    simp only [onList, List.length_append, List.length_take, List.length_cons, List.length_drop]
    omega
  | insertArr i items =>
    obtain ⟨hneg, hpos, hroom⟩ := hop
    have hle := place_le hneg hpos
    obtain ⟨s', hs, h'⟩ := insertArr_spec h items (by omega) hneg hpos (by omega)
    refine ⟨s', by rw [Op.apply, hs]; rfl, h', ?_⟩
    simp only [onList, List.length_append, List.length_take, List.length_drop]
    omega

theorem runFrom_spec (h : Inv s l) (hl : l.length < 2 ^ 31) {ops : List (Op P)}
    (hops : AllowedFrom l ops) :
    ∃ s', runFrom s ops = some ((runList l ops).1, s') ∧ Inv s' (runList l ops).2 := by
  induction ops generalizing s l with
  | nil => exact ⟨s, rfl, h⟩
  | cons op ops ih =>
    obtain ⟨s', hs, h', hl'⟩ := Op.apply_spec h hops.1 hl
    obtain ⟨s'', hr, h''⟩ := ih h' hl' hops.2
    refine ⟨s'', ?_, h''⟩
    rw [runFrom, hs]
    change ((runFrom s' ops).bind _) = _
    rw [hr]
    rfl

theorem behavesAsList_of_le {c : ℕ} (h : c ≤ 2 ^ 60) : BehavesAsList P c := by
  intro ops hops
  obtain ⟨s, hr, hinv⟩ := runFrom_spec (create_inv h) (Nat.two_pow_pos 31) hops
  exact ⟨s, hr, hinv.represents⟩

/-- Eight bytes for each of more than `2 ^ 60` pointers are a multiple of `2 ^ 64`. -/
theorem items_create {c : ℕ} (h : 2 ^ 60 < c) (hc : c ≤ 2 ^ 63) :
    (create c : Stack P).items = [] ∧ 0 < (create c : Stack P).capacity := by
  obtain ⟨heq, hle⟩ := nextPowerOfTwo_eq (n := c) (by omega) hc
  have hlt : 2 ^ 60 < 2 ^ (c - 1).size := by omega
  have hlt := (Nat.pow_lt_pow_iff_right (a := 2) (by omega)).mp hlt
  obtain ⟨k, hk⟩ := Nat.exists_eq_add_of_lt hlt
  have hmin : c ≥ minCapacity := Nat.le_trans (by decide) (Nat.le_of_lt h)
  have hcells : cellsOf (2 ^ (c - 1).size) = 0 := by
    have : 8 * 2 ^ (c - 1).size = 2 ^ 64 * 2 ^ k := by
      rw [hk, show 60 + k + 1 = 61 + k by omega, pow_add]
      omega
    rw [cellsOf, this, Nat.mul_mod_right]
  simp only [create, if_pos hmin, heq, hcells]
  exact ⟨rfl, Nat.two_pow_pos _⟩

theorem not_behavesAsList_of_lt {c : ℕ} (h : 2 ^ 60 < c) (hc : c ≤ 2 ^ 63) (x : P) :
    ¬ BehavesAsList P c := by
  intro hb
  obtain ⟨s, hr, -⟩ := hb [.push x] ⟨by simp [Op.Allowed], trivial⟩
  obtain ⟨hitems, hpos⟩ := items_create (P := P) h hc
  have hpush : (create c : Stack P).push x = none := by
    have hcount : (create c : Stack P).count = 0 := rfl
    have hwrite : write ([] : List (Option P)) 0 x = none := rfl
    rw [push]
    simp only [hcount, hitems, if_neg (Nat.ne_of_lt hpos), hwrite]
    rfl
  rw [runFrom, Op.apply, hpush] at hr
  cases hr

/-- A stack is a list exactly when the capacity it is created with is at most `2 ^ 60`. -/
theorem behavesAsList_iff [Inhabited P] {c : ℕ} (hc : c ≤ 2 ^ 63) :
    BehavesAsList P c ↔ c ≤ 2 ^ 60 := by
  refine ⟨fun hb => ?_, behavesAsList_of_le⟩
  by_contra hlt
  exact not_behavesAsList_of_lt (by omega) hc default hb

theorem behavesAsList_iff_min : 4 ≤ 2 ^ 63 ∧ (BehavesAsList UInt64 4 ↔ 4 ≤ 2 ^ 60) :=
  ⟨by decide, behavesAsList_iff (by decide)⟩

/-- A stack for `2 ^ 61` pointers. -/
theorem not_behavesAsList_overflow : ¬ BehavesAsList UInt64 (2 ^ 61) :=
  not_behavesAsList_of_lt (by decide) (by decide) 0

end Libuo.Stack
