import Libuo.CellArray
import Libuo.Util
import Mathlib.Data.Int.Cast.Lemmas

/-!
# Stacks

An array of pointers with a count and a capacity that is a power of two. The array is
doubled when an item does not fit, and halved when an eighth of it is in use. Sizes are
64-bit numbers of bytes, eight for each pointer.

The operations have the names of the source without `uo_stack_`.
-/

namespace Libuo
open CellArray Util

/-- `uo_stack`: the array is what has been allocated, which the capacity need not be. -/
structure Stack (P : Type) where
  items : List (Option P)
  count : ℕ
  capacity : ℕ

namespace Stack

variable {P : Type}

def minCapacity : ℕ := 0x4

/-- `next_power_of_two`, which takes the same steps as `uo_ceil_pow2`. -/
def nextPowerOfTwo (n : ℕ) : ℕ := (ceilPow2 (UInt64.ofNat n)).toNat

/-- The number of pointers in `sizeof *items * n` bytes. -/
def cellsOf (n : ℕ) : ℕ := 8 * n % 2 ^ 64 / 8

/-- `uo_stack_create_at`. -/
def create (initialCapacity : ℕ) : Stack P :=
  let capacity :=
    if initialCapacity ≥ minCapacity then nextPowerOfTwo initialCapacity else minCapacity
  ⟨List.replicate (cellsOf capacity) none, 0, capacity⟩

/-- `stack->items = realloc(stack->items, sizeof *stack->items * (stack->capacity = ...))`. -/
def resize (s : Stack P) (capacity : ℕ) : Stack P :=
  { s with items := realloc s.items (cellsOf capacity), capacity }

def push (s : Stack P) (item : P) : Option (Stack P) := do
  let count := s.count
  let s := { s with count := (s.count + 1) % 2 ^ 64 }
  let s := if count = s.capacity then s.resize (s.capacity <<< 1 % 2 ^ 64) else s
  let items ← write s.items count item
  some { s with items }

def pushArr (s : Stack P) (items : List P) : Option (Stack P) := do
  let stackCount := (items.length + s.count) % 2 ^ 64
  let s := if stackCount > s.capacity then s.resize (nextPowerOfTwo stackCount) else s
  let items ← store s.items s.count (items.map some)
  some { s with items, count := stackCount }

def pop (s : Stack P) : Option (P × Stack P) := do
  guard (s.count ≠ 0)
  let count := s.count - 1
  let item ← read s.items count
  let s := { s with count }
  let s := if count = s.capacity >>> 3 ∧ count ≥ minCapacity then s.resize (s.capacity >>> 1) else s
  some (item, s)

def peek (s : Stack P) : Option P := read s.items ((s.count + (2 ^ 64 - 1)) % 2 ^ 64)

/-- `index >= 0 ? index : (stack->count + index)`, of type `size_t`. -/
def position (count : ℕ) (index : ℤ) : ℕ := (if index ≥ 0 then index else count + index) % 2 ^ 64
  |>.toNat

/-- A `size_t` assigned to an `int`. -/
def toInt (n : ℕ) : ℤ := (n + 2 ^ 31) % 2 ^ 32 - 2 ^ 31

def index (s : Stack P) (index : ℤ) : Option P := read s.items (position s.count index)

def insert (s : Stack P) (index : ℤ) (item : P) : Option (Stack P) := do
  let index := toInt (position s.count index)
  let count := s.count
  let s := { s with count := (s.count + 1) % 2 ^ 64 }
  let s := if count = s.capacity then s.resize (s.capacity <<< 1 % 2 ^ 64) else s
  guard (index ≥ 0)
  let i := index.toNat
  let items ← memmove s.items (i + 1) i (cellsOf ((count + (2 ^ 64 - i)) % 2 ^ 64))
  let items ← write items i item
  some { s with items }

def insertArr (s : Stack P) (index : ℤ) (items : List P) : Option (Stack P) := do
  let index := toInt (position s.count index)
  let stackCount := (items.length + s.count) % 2 ^ 64
  let s := if stackCount > s.capacity then s.resize (nextPowerOfTwo stackCount) else s
  guard (index ≥ 0)
  let i := index.toNat
  let moved ← memmove s.items (i + items.length) i (cellsOf ((s.count + (2 ^ 64 - i)) % 2 ^ 64))
  let items ← store moved i (items.map some)
  some { s with items, count := stackCount }

/-- The items are those of a list, the top of the stack being its last, and the whole
capacity has been allocated. -/
structure Inv (s : Stack P) (l : List P) : Prop where
  pow : ∃ e, 2 ≤ e ∧ e ≤ 60 ∧ s.capacity = 2 ^ e
  cells : s.items.length = s.capacity
  count : s.count = l.length
  le : l.length ≤ s.capacity
  holds : Holds s.items l

variable {s : Stack P} {l xs : List P} {e n : ℕ}

theorem cellsOf_of_le (h : n ≤ 2 ^ 60) : cellsOf n = n := by
  rw [cellsOf, Nat.mod_eq_of_lt (by omega)]
  omega

theorem nextPowerOfTwo_eq (h0 : 0 < n) (h : n ≤ 2 ^ 63) :
    nextPowerOfTwo n = 2 ^ (n - 1).size ∧ n ≤ 2 ^ (n - 1).size := ceilPow2_eq h0 h

/-- Both functions round up to the least power of two. -/
theorem isLeast_powersFrom {n : ℕ} (h0 : 1 ≤ n) (h : n ≤ 2 ^ 63) :
    IsLeast (powersFrom n) (ceilPow2 (UInt64.ofNat n)).toNat ∧
      IsLeast (powersFrom n) (nextPowerOfTwo n) := by
  rw [(nextPowerOfTwo_eq h0 h).1, (ceilPow2_eq h0 h).1]
  exact ⟨isLeast_two_pow_size h0, isLeast_two_pow_size h0⟩

theorem isLeast_powersFrom_nine : 1 ≤ 9 ∧ 9 ≤ 2 ^ 63 ∧
    IsLeast (powersFrom 9) (ceilPow2 9).toNat ∧ IsLeast (powersFrom 9) (nextPowerOfTwo 9) :=
  ⟨by decide, by decide, isLeast_powersFrom (by decide) (by decide)⟩

theorem Inv.capacity_le (h : Inv s l) : s.capacity ≤ 2 ^ 60 := by
  obtain ⟨e, -, he, hcap⟩ := h.pow
  exact hcap ▸ Nat.pow_le_pow_right (by omega) he

/-- A new capacity with room for the items. -/
theorem Inv.resize (h : Inv s l) (hmin : 2 ≤ e) (he : e ≤ 60) (hle : l.length ≤ 2 ^ e) :
    Inv (s.resize (2 ^ e)) l := by
  have hcells : cellsOf (2 ^ e) = 2 ^ e := cellsOf_of_le (Nat.pow_le_pow_right (by omega) he)
  refine ⟨⟨e, hmin, he, rfl⟩, ?_, h.count, hle, ?_⟩
  · rw [Stack.resize, length_realloc, hcells]
  · exact h.holds.realloc (by rw [hcells]; exact hle)

/-- `create` allocates the whole capacity as long as its size can be represented. -/
theorem create_inv (h : n ≤ 2 ^ 60) : Inv (create n : Stack P) [] := by
  obtain ⟨e, hcap, hmin, he⟩ : ∃ e, (if n ≥ minCapacity then nextPowerOfTwo n else minCapacity) =
      2 ^ e ∧ 2 ≤ e ∧ e ≤ 60 := by
    split
    · rename_i hge
      have hge : 4 ≤ n := hge
      obtain ⟨heq, hle⟩ := nextPowerOfTwo_eq (n := n) (by omega) (by omega)
      refine ⟨_, heq, ?_, Nat.size_le.mpr (by omega)⟩
      by_contra hlt
      have : 2 ^ (n - 1).size ≤ 2 ^ 1 := Nat.pow_le_pow_right (by omega) (by omega)
      omega
    · exact ⟨2, rfl, by omega, by omega⟩
  have hcells : cellsOf (2 ^ e) = 2 ^ e := cellsOf_of_le (Nat.pow_le_pow_right (by omega) he)
  rw [create]
  simp only [hcap, hcells]
  exact ⟨⟨e, hmin, he, rfl⟩, List.length_replicate, rfl, Nat.zero_le _, List.nil_prefix⟩

/-- The capacity is doubled when the stack is full. -/
private theorem Inv.double (h : Inv s l) (hroom : l.length + 1 ≤ 2 ^ 60) (n : ℕ) :
    ∃ items capacity, (if l.length = s.capacity then
        { s with count := n }.resize (s.capacity <<< 1 % 2 ^ 64) else { s with count := n }) =
        ⟨items, n, capacity⟩ ∧ Inv ⟨items, l.length, capacity⟩ l ∧ l.length < capacity := by
  obtain ⟨e, hmin, he, hcap⟩ := h.pow
  have hle := h.le
  split
  · rename_i hfull
    have hlt : e < 60 := (Nat.pow_lt_pow_iff_right (a := 2) (by omega)).mp (by omega)
    have hpow : 2 ^ (e + 1) ≤ 2 ^ 60 := Nat.pow_le_pow_right (by omega) hlt
    have hshift : s.capacity <<< 1 % 2 ^ 64 = 2 ^ (e + 1) := by
      rw [hcap, Nat.shiftLeft_eq, pow_one, ← pow_succ, Nat.mod_eq_of_lt (by omega)]
    have hdouble : 2 ^ (e + 1) = 2 * s.capacity := by rw [pow_succ, Nat.mul_comm, hcap]
    have hpos := Nat.two_pow_pos e
    rw [hshift]
    have hinv := h.resize (e := e + 1) (by omega) hlt (by omega)
    refine ⟨_, _, rfl, ⟨hinv.pow, hinv.cells, rfl, hinv.le, hinv.holds⟩, ?_⟩
    omega
  · exact ⟨s.items, s.capacity, rfl, ⟨h.pow, h.cells, rfl, h.le, h.holds⟩, by omega⟩

/-- The capacity becomes the next power of two when a block does not fit. -/
private theorem Inv.reserve (h : Inv s l) (hroom : n ≤ 2 ^ 60) (hn : l.length ≤ n) :
    ∃ t : Stack P, (if n > s.capacity then s.resize (nextPowerOfTwo n) else s) = t ∧ Inv t l ∧
      n ≤ t.capacity := by
  refine ⟨_, rfl, ?_⟩
  split
  · rename_i hgt
    obtain ⟨e, hmin, -, hcap⟩ := h.pow
    have hpos := Nat.two_pow_pos e
    obtain ⟨heq, hle⟩ := nextPowerOfTwo_eq (n := n) (by omega) (by omega)
    have hgt' : 2 ^ e < 2 ^ (n - 1).size := by omega
    have hlt := (Nat.pow_lt_pow_iff_right (a := 2) (by omega)).mp hgt'
    rw [heq]
    exact ⟨h.resize (by omega) (Nat.size_le.mpr (by omega)) (by omega), hle⟩
  · exact ⟨h, by omega⟩

theorem push_spec (h : Inv s l) (hroom : l.length + 1 ≤ 2 ^ 60) (x : P) :
    ∃ s', s.push x = some s' ∧ Inv s' (l ++ [x]) := by
  have hmod : (l.length + 1) % 2 ^ 64 = l.length + 1 := Nat.mod_eq_of_lt (by omega)
  obtain ⟨items, capacity, hdouble, hinv, hlt⟩ := h.double hroom (l.length + 1)
  obtain ⟨items', hwrite, hholds, hlen⟩ := hinv.holds.write (hinv.cells ▸ hlt) x
  refine ⟨⟨items', l.length + 1, capacity⟩, ?_, hinv.pow, hlen.trans hinv.cells, by simp,
    by rw [List.length_append]; exact hlt, hholds⟩
  rw [push]
  simp only [h.count, hmod, hdouble, hwrite]
  rfl

theorem pushArr_spec (h : Inv s l) (xs : List P) (hroom : l.length + xs.length ≤ 2 ^ 60) :
    ∃ s', s.pushArr xs = some s' ∧ Inv s' (l ++ xs) := by
  have hmod : (xs.length + l.length) % 2 ^ 64 = l.length + xs.length := by
    rw [Nat.add_comm, Nat.mod_eq_of_lt (by omega)]
  obtain ⟨t, hreserve, hinv, hle⟩ := h.reserve hroom (Nat.le_add_right _ _)
  obtain ⟨items, hstore, hholds, hlen⟩ := hinv.holds.store xs (hinv.cells ▸ hle)
  refine ⟨⟨items, l.length + xs.length, t.capacity⟩, ?_, hinv.pow, hlen.trans hinv.cells,
    by simp, by rw [List.length_append]; exact hle, hholds⟩
  rw [pushArr]
  simp only [h.count, hmod, hreserve, hinv.count, hstore]
  rfl

/-- Half of the capacity has room for the items when they fill an eighth of it. -/
theorem pop_spec {x : P} (h : Inv s (l ++ [x])) :
    ∃ s', s.pop = some (x, s') ∧ Inv s' l := by
  obtain ⟨e, hmin, he, hcap⟩ := h.pow
  have hcount : s.count = l.length + 1 := by simp [h.count]
  have hle : l.length + 1 ≤ s.capacity := by simpa using h.le
  have hread : read s.items l.length = some x := by
    rw [h.holds.read (by simp)]
    simp
  have hinv : Inv ⟨s.items, l.length, s.capacity⟩ l :=
    ⟨h.pow, h.cells, rfl, by simp only; omega, h.holds.mono⟩
  have hpop : s.pop = some (x, if l.length = s.capacity >>> 3 ∧ l.length ≥ minCapacity then
      (⟨s.items, l.length, s.capacity⟩ : Stack P).resize (s.capacity >>> 1)
      else ⟨s.items, l.length, s.capacity⟩) := by
    rw [pop]
    simp only [hcount, Nat.add_sub_cancel, hread]
    rfl
  refine ⟨_, hpop, ?_⟩
  split
  · rename_i hshrink
    obtain ⟨heighth, hmin'⟩ := hshrink
    have hmin' : 4 ≤ l.length := hmin'
    rw [hcap, Nat.shiftRight_eq_div_pow] at heighth
    have hbig : 2 ^ 4 < 2 ^ e := by omega
    have hlt := (Nat.pow_lt_pow_iff_right (a := 2) (by omega)).mp hbig
    have hhalf : 2 ^ e = 2 * 2 ^ (e - 1) := by
      rw [← pow_succ', Nat.sub_add_cancel (by omega)]
    have hshift : s.capacity >>> 1 = 2 ^ (e - 1) := by
      rw [hcap, Nat.shiftRight_eq_div_pow]
      omega
    rw [hshift]
    exact hinv.resize (by omega) (by omega) (by omega)
  · exact hinv

theorem read_of_inv (h : Inv s l) {i : ℕ} (hi : i < l.length) : read s.items i = some l[i] :=
  h.holds.read hi

theorem peek_spec {x : P} (h : Inv s (l ++ [x])) : s.peek = some x := by
  have hcap := h.capacity_le
  have hle := h.le
  rw [List.length_append, List.length_singleton] at hle
  have hlast : (s.count + (2 ^ 64 - 1)) % 2 ^ 64 = l.length := by
    rw [h.count, List.length_append, List.length_singleton]
    omega
  rw [peek, hlast, read_of_inv h (by simp)]
  simp

/-- The place in a list that an index means: a negative one is counted from one past the
last item. -/
def place (length : ℕ) (index : ℤ) : ℕ :=
  if index ≥ 0 then index.toNat else (length + index).toNat

theorem position_eq {i : ℤ} (hn : n ≤ 2 ^ 60) (hneg : -n ≤ i) (hpos : i ≤ n) :
    position n i = place n i := by
  rw [position, place]
  split <;> omega

theorem place_le {i : ℤ} (hneg : -n ≤ i) (hpos : i ≤ n) : place n i ≤ n := by
  rw [place]
  split <;> omega

theorem toInt_eq (h : n < 2 ^ 31) : toInt n = n := by
  rw [toInt]
  omega

theorem index_spec (h : Inv s l) {i : ℤ} (hneg : -l.length ≤ i) (hpos : i < l.length) :
    place l.length i < l.length ∧ s.index i = l[place l.length i]? := by
  have hi : place l.length i < l.length := by
    rw [place]
    split <;> omega
  have := h.capacity_le
  have := h.le
  refine ⟨hi, ?_⟩
  rw [index, h.count, position_eq (by omega) hneg (by omega), read_of_inv h hi,
    List.getElem?_eq_getElem hi]

/-- An index counted from the bottom means the same item when others are on top. -/
theorem index_append_left {s' : Stack P} (h : Inv s l) (h' : Inv s' (l ++ xs)) {i : ℤ} (h0 : 0 ≤ i)
    (hi : i < l.length) : s'.index i = s.index i := by
  have hplace (n : ℕ) : place n i = i.toNat := by rw [place, if_pos h0]
  obtain ⟨hlt, hread⟩ := index_spec h (i := i) (by omega) hi
  obtain ⟨hlt', hread'⟩ := index_spec h' (i := i) (by omega) (by rw [List.length_append]; omega)
  rw [hread, hread']
  simp only [hplace] at hlt hlt' ⊢
  rw [List.getElem?_append_left hlt]

/-- An index counted from the top means the same item when others are below. -/
theorem index_append_right {s' : Stack P} (h : Inv s l) (h' : Inv s' (xs ++ l)) {i : ℤ}
    (hneg : -l.length ≤ i) (hi : i < 0) : s'.index i = s.index i := by
  obtain ⟨hlt, hread⟩ := index_spec h hneg (by omega)
  obtain ⟨hlt', hread'⟩ := index_spec h' (i := i) (by rw [List.length_append]; omega)
    (by omega)
  have hplace : place (xs ++ l).length i = xs.length + place l.length i := by
    rw [place, place, if_neg (by omega), if_neg (by omega), List.length_append]
    omega
  rw [hread, hread']
  simp only [hplace]
  rw [List.getElem?_append_right (Nat.le_add_right _ _)]
  simp

theorem insertArr_spec (h : Inv s l) (xs : List P) (hroom : l.length + xs.length ≤ 2 ^ 60) {i : ℤ}
    (hneg : -l.length ≤ i) (hpos : i ≤ l.length) (hint : place l.length i < 2 ^ 31) :
    ∃ s', s.insertArr i xs = some s' ∧
      Inv s' (l.take (place l.length i) ++ xs ++ l.drop (place l.length i)) := by
  obtain ⟨p, hp⟩ : ∃ p, p = place l.length i := ⟨_, rfl⟩
  have hple : p ≤ l.length := hp ▸ place_le hneg hpos
  have hposition : position l.length i = p := by rw [position_eq (by omega) hneg hpos, hp]
  have hindex : toInt p = p := toInt_eq (hp ▸ hint)
  have hmod : (xs.length + l.length) % 2 ^ 64 = l.length + xs.length := by
    rw [Nat.add_comm, Nat.mod_eq_of_lt (by omega)]
  obtain ⟨t, hreserve, hinv, hle⟩ := h.reserve hroom (Nat.le_add_right _ _)
  obtain ⟨moved, items, hmove, hstore, hholds, hlen⟩ :=
    hinv.holds.insert xs hple (hinv.cells ▸ hle)
  have hrest : cellsOf ((l.length + (2 ^ 64 - p)) % 2 ^ 64) = l.length - p := by
    rw [show (l.length + (2 ^ 64 - p)) % 2 ^ 64 = l.length - p by omega,
      cellsOf_of_le (by omega)]
  rw [← hp]
  refine ⟨⟨items, l.length + xs.length, t.capacity⟩, ?_, hinv.pow, hlen.trans hinv.cells, ?_,
    ?_, hholds⟩
  · rw [insertArr]
    simp only [h.count, hposition, hindex, hmod, hreserve, hinv.count, Int.toNat_natCast, hrest,
      hmove]
    simp [hstore]
  · simp only [List.length_append, List.length_take, List.length_drop]
    omega
  · simp only [List.length_append, List.length_take, List.length_drop]
    omega

/-- A block is put below all items. -/
theorem insertArr_bottom (h : Inv s l) (xs : List P) (hroom : l.length + xs.length ≤ 2 ^ 60) :
    ∃ s', s.insertArr 0 xs = some s' ∧ Inv s' (xs ++ l) := by
  have hplace : place l.length 0 = 0 := by simp [place]
  obtain ⟨s', hs, h'⟩ := insertArr_spec (i := 0) h xs hroom (by simp) (by simp) (by simp [hplace])
  rw [hplace, List.take_zero, List.drop_zero, List.nil_append] at h'
  exact ⟨s', hs, h'⟩

theorem insert_spec (h : Inv s l) (hroom : l.length + 1 ≤ 2 ^ 60) {i : ℤ}
    (hneg : -l.length ≤ i) (hpos : i ≤ l.length) (hint : place l.length i < 2 ^ 31) (x : P) :
    ∃ s', s.insert i x = some s' ∧
      Inv s' (l.take (place l.length i) ++ x :: l.drop (place l.length i)) := by
  obtain ⟨p, hp⟩ : ∃ p, p = place l.length i := ⟨_, rfl⟩
  have hple : p ≤ l.length := hp ▸ place_le hneg hpos
  have hposition : position l.length i = p := by rw [position_eq (by omega) hneg hpos, hp]
  have hindex : toInt p = p := toInt_eq (hp ▸ hint)
  have hmod : (l.length + 1) % 2 ^ 64 = l.length + 1 := Nat.mod_eq_of_lt (by omega)
  obtain ⟨cells, capacity, hdouble, hinv, hlt⟩ := h.double hroom (l.length + 1)
  obtain ⟨moved, items, hmove, hstore, hholds, hlen⟩ :=
    hinv.holds.insert [x] hple (hinv.cells ▸ hlt)
  have hwrite : write moved p x = some items := hstore
  have hrest : cellsOf ((l.length + (2 ^ 64 - p)) % 2 ^ 64) = l.length - p := by
    rw [show (l.length + (2 ^ 64 - p)) % 2 ^ 64 = l.length - p by omega,
      cellsOf_of_le (by omega)]
  rw [← hp]
  refine ⟨⟨items, l.length + 1, capacity⟩, ?_, hinv.pow, hlen.trans hinv.cells, ?_, ?_,
    by simpa using hholds⟩
  · rw [List.length_singleton] at hmove
    rw [insert]
    simp only [h.count, hposition, hindex, hmod, hdouble, Int.toNat_natCast, hrest, hmove]
    simp [hwrite]
  · simp only [List.length_append, List.length_take, List.length_cons, List.length_drop]
    omega
  · simp only [List.length_append, List.length_take, List.length_cons, List.length_drop]
    omega

end Stack

end Libuo
