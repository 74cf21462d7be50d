import Mathlib.Data.List.Basic
import Mathlib.Data.List.Infix
import Mathlib.Tactic.Common

/-!
# Arrays of cells

An allocated array, in which a cell that has never been written is `none`. Reads and
block moves outside the array fail. What is stored is described by the list that the
array begins with.
-/

namespace Libuo.CellArray

variable {α : Type} {cells : List (Option α)} {l xs : List α} {i n p : ℕ} {x : α}

/-- The cells that fit are kept, and new ones have not been written. -/
def realloc (cells : List (Option α)) (n : ℕ) : List (Option α) :=
  cells.take n ++ List.replicate (n - cells.length) none

def read (cells : List (Option α)) (i : ℕ) : Option α := cells[i]?.join

/-- A block of cells copied to an offset. -/
def store (cells : List (Option α)) (offset : ℕ) (src : List (Option α)) :
    Option (List (Option α)) :=
  if offset + src.length ≤ cells.length then
    some (cells.take offset ++ src ++ cells.drop (offset + src.length))
  else none

def write (cells : List (Option α)) (i : ℕ) (x : α) : Option (List (Option α)) :=
  store cells i [some x]

/-- A block of `n` cells of the array copied to another offset. -/
def memmove (cells : List (Option α)) (dst src n : ℕ) : Option (List (Option α)) :=
  if src + n ≤ cells.length then store cells dst ((cells.drop src).take n) else none

/-- The array begins with the items of a list. -/
def Holds (cells : List (Option α)) (l : List α) : Prop := l.map some <+: cells

theorem Holds.length_le (h : Holds cells l) : l.length ≤ cells.length := by
  have := List.IsPrefix.length_le h
  simpa using this

theorem Holds.take (h : Holds cells l) : cells.take l.length = l.map some := by
  rw [List.prefix_iff_eq_take.mp h]
  simp

theorem Holds.mono (h : Holds cells (l ++ xs)) : Holds cells l :=
  (List.prefix_append _ _).trans (by simpa [Holds] using h)

theorem length_realloc (cells : List (Option α)) (n : ℕ) : (realloc cells n).length = n := by
  simp only [realloc, List.length_append, List.length_take, List.length_replicate]
  omega

theorem Holds.realloc (h : Holds cells l) (hn : l.length ≤ n) :
    Holds (CellArray.realloc cells n) l := by
  have htake : l.map some <+: cells.take n := by
    rw [List.prefix_take_iff]
    exact ⟨h, by simpa using hn⟩
  exact htake.trans (List.prefix_append _ _)

theorem Holds.read (h : Holds cells l) (hi : i < l.length) :
    CellArray.read cells i = some l[i] := by
  obtain ⟨rest, rfl⟩ := h
  rw [CellArray.read, List.getElem?_append_left (by simpa using hi)]
  simp [hi]

/-- A block behind the items of a list extends it. -/
theorem Holds.store (h : Holds cells l) (xs : List α) (hlt : l.length + xs.length ≤ cells.length) :
    ∃ cells', CellArray.store cells l.length (xs.map some) = some cells' ∧
      Holds cells' (l ++ xs) ∧ cells'.length = cells.length := by
  refine ⟨_, if_pos (by simpa using hlt), ?_, ?_⟩
  · rw [h.take, ← List.map_append]
    exact List.prefix_append _ _
  · simp only [List.length_append, List.length_take, List.length_drop, List.length_map]
    omega

theorem Holds.write (h : Holds cells l) (hlt : l.length < cells.length) (x : α) :
    ∃ cells', CellArray.write cells l.length x = some cells' ∧ Holds cells' (l ++ [x]) ∧
      cells'.length = cells.length :=
  h.store [x] hlt

/-- A block is inserted: what follows is moved to make room, and the room is filled. -/
theorem Holds.insert (h : Holds cells l) (xs : List α) (hp : p ≤ l.length)
    (hlt : l.length + xs.length ≤ cells.length) :
    ∃ moved cells', memmove cells (p + xs.length) p (l.length - p) = some moved ∧
      CellArray.store moved p (xs.map some) = some cells' ∧
      Holds cells' (l.take p ++ xs ++ l.drop p) ∧ cells'.length = cells.length := by
  have hblock : ((cells.drop p).take (l.length - p)) = (l.drop p).map some := by
    rw [List.map_drop, ← h.take, List.take_drop]
    congr 2
    omega
  obtain ⟨moved, hmoved⟩ : ∃ moved, moved = cells.take (p + xs.length) ++ (l.drop p).map some ++
      cells.drop (p + xs.length + (l.length - p)) := ⟨_, rfl⟩
  have hlength : moved.length = cells.length := by
    rw [hmoved]
    simp only [List.length_append, List.length_take, List.length_drop, List.length_map]
    omega
  have hpre : moved.take p = (l.take p).map some := by
    rw [hmoved, List.append_assoc, List.take_append_of_le_length (by rw [List.length_take]; omega),
      List.take_take, Nat.min_eq_left (Nat.le_add_right _ _), List.map_take, ← h.take,
      List.take_take, Nat.min_eq_left hp]
  have hpost : (l.drop p).map some <+: moved.drop (p + xs.length) := by
    rw [hmoved, List.append_assoc, List.drop_append_of_le_length (by rw [List.length_take]; omega),
      List.drop_take, Nat.sub_self, List.take_zero, List.nil_append]
    exact List.prefix_append _ _
  refine ⟨moved, moved.take p ++ xs.map some ++ moved.drop (p + xs.length), ?_, ?_, ?_, ?_⟩
  · rw [memmove, if_pos (by omega), hblock, CellArray.store,
      if_pos (by rw [List.length_map, List.length_drop]; omega), hmoved, List.length_map,
      List.length_drop]
  · rw [CellArray.store, if_pos (by rw [List.length_map]; omega), List.length_map]
  · rw [Holds, hpre, List.map_append, List.map_append, List.prefix_append_right_inj]
    exact hpost
  · simp only [List.length_append, List.length_take, List.length_drop, List.length_map]
    omega

end Libuo.CellArray
