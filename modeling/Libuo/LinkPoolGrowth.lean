import Libuo.LinkPoolRuns

/-!
# How much a pool allocates

A pool should allocate a block only when it has no free node. The condition before the allocation is
the name of a function that is not called, so that every node that is rented costs a block.
-/

namespace Libuo.LinkPool
open LinkList

/-- The number of calls of `rent`. -/
def rents : List Event → ℕ
  | [] => 0
  | .rented _ _ :: past => rents past + 1
  | .init _ :: past | .returned _ _ :: past | .quit _ :: past | .used :: past => rents past

/-- The largest number of nodes that have been rented at once. -/
def peak : List Event → ℕ
  | [] => 0
  | e :: past => max (out (e :: past)).length (peak past)

/-- The number of nodes in the blocks that hold `n` nodes. -/
def inBlocks (n : ℕ) : ℕ := defaultGrow * ((n + (defaultGrow - 1)) / defaultGrow)

/-- No more nodes are allocated than the blocks for the largest number rented at once, and a call
of `rent` has allocated a block only when the thread had no free node. -/
structure Economical (past : List Event) (s : State) : Prop where
  bound : s.fresh ≤ inBlocks (peak past)
  grows : ∀ t link past' s₁ s₂, .rented t link :: past' <:+ past → Reach past' s₁ →
    s₁.rent t = some (link, s₂) → s₁.fresh < s₂.fresh → FreeList s₁ t []

variable {past past' : List Event} {s s' : State} {t : ℕ} {link : Node}

theorem Reach.fresh (h : Reach past s) : s.fresh = defaultGrow * rents past := by
  induction h with
  | start => rfl
  | @init past s t h ih =>
    rw [rents, ← ih, State.thrdInit]
    split <;> rfl
  | rented h hrent ih =>
    obtain ⟨lists, hex⟩ := h.exclusive
    obtain ⟨l, hl⟩ := hex.inv.lists_of_rent hrent
    obtain ⟨s', hrent', hfresh, -⟩ := rent_spec hex.inv hl
    obtain ⟨-, rfl⟩ := Prod.mk.inj (Option.some.inj (hrent'.symm.trans hrent))
    rw [hfresh, ih, rents, Nat.mul_succ]
    rfl
  | returned h hlink hback ih =>
    obtain ⟨links, -, hs⟩ := Option.bind_eq_some_iff.mp hback
    rw [rents, ← ih, ← Option.some.inj hs]
  | quit h hquit ih =>
    rw [State.thrdQuit] at hquit
    rw [rents, ← ih]
    split_ifs at hquit <;> rw [← Option.some.inj hquit]
  | used L' h hsame ih => exact ih

theorem length_out_le (past : List Event) : (out past).length ≤ rents past := by
  induction past with
  | nil => exact Nat.le_refl _
  | cons e past ih =>
    cases e with
    | rented t link => exact Nat.succ_le_succ ih
    | returned t link => exact (List.erase_sublist.length_le).trans ih
    | init t => exact ih
    | quit t => exact ih
    | used => exact ih

theorem rents_le_cons (e : Event) (past : List Event) : rents past ≤ rents (e :: past) := by
  cases e <;> simp [rents]

theorem rents_le (h : past' <:+ past) : rents past' ≤ rents past := by
  obtain ⟨l, rfl⟩ := h
  induction l with
  | nil => exact Nat.le_refl _
  | cons e l ih => exact ih.trans (rents_le_cons e _)

theorem peak_le (past : List Event) : peak past ≤ rents past := by
  induction past with
  | nil => exact Nat.le_refl _
  | cons e past ih =>
    exact Nat.max_le.mpr ⟨length_out_le _, ih.trans (rents_le_cons e past)⟩

theorem peak_pos (h : 0 < rents past) : 0 < peak past := by
  induction past with
  | nil => cases h
  | cons e past ih =>
    cases e with
    | rented t link => exact Nat.lt_of_lt_of_le (Nat.succ_pos _) (Nat.le_max_left _ _)
    | init t => exact Nat.lt_of_lt_of_le (ih h) (Nat.le_max_right _ _)
    | returned t link => exact Nat.lt_of_lt_of_le (ih h) (Nat.le_max_right _ _)
    | quit t => exact Nat.lt_of_lt_of_le (ih h) (Nat.le_max_right _ _)
    | used => exact Nat.lt_of_lt_of_le (ih h) (Nat.le_max_right _ _)

theorem Reach.freeList_nil (h : Reach past s) (hnone : rents past = 0)
    (hrent : s.rent t = some (link, s')) : FreeList s t [] := by
  obtain ⟨lists, hex⟩ := h.exclusive
  obtain ⟨l, hl⟩ := hex.inv.lists_of_rent hrent
  have hfresh : s.fresh = 0 := by rw [h.fresh, hnone]; rfl
  have hnil : l = [] := List.eq_nil_iff_forall_not_mem.mpr fun i hi => by
    have hlt := hex.inv.allocated hl i hi
    rw [hfresh] at hlt
    exact absurd hlt (Nat.not_lt_zero i)
  exact freeList_of_eq hex.inv (hnil ▸ hl)

/-- A pool allocates no more than needed if and only if at most one node has ever been rented. -/
theorem economical_iff (h : Reach past s) : Economical past s ↔ rents past ≤ 1 := by
  have hpeak := peak_le past
  have hfresh := h.fresh
  constructor
  · intro he
    have hbound := he.bound
    rw [inBlocks, hfresh, defaultGrow] at hbound
    omega
  · intro hone
    refine ⟨?_, fun t link past' s₁ s₂ hsuffix h₁ hrent _ => ?_⟩
    · have hpos : 0 < rents past → 0 < peak past := peak_pos
      rw [inBlocks, hfresh, defaultGrow]
      omega
    · have hle := rents_le hsuffix
      rw [rents] at hle
      exact h₁.freeList_nil (by omega) hrent

/-- A thread rents one node, and returns it. -/
theorem economical_iff_one : ∃ s, Reach [.returned 0 (.item 31), .rented 0 (.item 31), .init 0] s ∧
    Economical [.returned 0 (.item 31), .rented 0 (.item 31), .init 0] s := by
  have hinit := thrdInit_spec inv_init 0
  obtain ⟨s, hrent, hfresh', hinv, hfree, hout, -⟩ := rent_spec (t := 0) (l := []) hinit rfl
  obtain ⟨s', hback, -⟩ :=
    giveBack_spec (t := 0) hinv (Function.update_self ..) (by omega) hout hfree
  have hreach : Reach [.returned 0 (.item 31), .rented 0 (.item 31), .init 0] s' :=
    ((Reach.start.init 0).rented hrent).returned (by decide) hback
  exact ⟨s', hreach, (economical_iff hreach).mpr (Nat.le_refl 1)⟩

/-- A thread rents a node, returns it and rents a node again. -/
def again : List Event :=
  [.rented 0 (.item 63), .returned 0 (.item 31), .rented 0 (.item 31), .init 0]

/-- No more than one node is rented at once, and two blocks are allocated. -/
theorem not_economical_again : ∃ s, Reach again s ∧ ¬ Economical again s := by
  have hinit := thrdInit_spec inv_init 0
  obtain ⟨s, hrent, hfresh, hinv, hfree, hout, -⟩ := rent_spec (t := 0) (l := []) hinit rfl
  obtain ⟨s', hback, hfresh', hinv', -⟩ :=
    giveBack_spec (t := 0) hinv (Function.update_self ..) (by omega) hout hfree
  obtain ⟨s'', hrent', hfresh'', -⟩ := rent_spec (t := 0) hinv' (Function.update_self ..)
  have hsixtyThree : s'.fresh + 31 = 63 := by
    rw [hfresh', hfresh]
    rfl
  rw [hsixtyThree] at hrent'
  have hreach : Reach again s'' :=
    (((Reach.start.init 0).rented hrent).returned (by decide) hback).rented hrent'
  refine ⟨s'', hreach, fun he => ?_⟩
  have hbound := he.bound
  rw [hreach.fresh] at hbound
  exact absurd hbound (by decide)

end Libuo.LinkPool
