import Mathlib.Data.List.Basic
import Mathlib.Data.List.Count
import Mathlib.Tactic.Common

/-!
# Lives of shared resources

A slot is used for one resource after another. A resource is held by references, which are
taken and released. After the last one it is finalized, and the slot may be used again.
-/

namespace Libuo.Lifecycle

variable {R A : Type}

inductive Event (R : Type) where
  | created (r : R)
  | taken
  | released
  | finalized (r : R)
  | returned
  deriving DecidableEq

/-- The stages of a slot: a resource has references, has lost the last one, has been finalized. -/
inductive Stage (R : Type) where
  | free
  | held (r : R) (n : ℕ)
  | dying (r : R)
  | finalized
  deriving DecidableEq

/-- A stage can only go on to the next one with an event that belongs to it. -/
def Stage.next [DecidableEq R] : Stage R → Event R → Option (Stage R)
  | .free, .created r => some (.held r 1)
  | .held r n, .taken => some (.held r (n + 1))
  | .held r n, .released => some (if n = 1 then .dying r else .held r (n - 1))
  | .dying r, .finalized r' => if r = r' then some .finalized else none
  | .finalized, .returned => some .free
  | _, _ => none

/-- The stage after a history, the latest event of which comes first. -/
def stage [DecidableEq R] : List (Event R) → Option (Stage R)
  | [] => some .free
  | e :: past => (stage past).bind (·.next e)

def Stage.alive [DecidableEq R] (r : R) : Stage R → ℕ
  | .held r' _ | .dying r' => if r' = r then 1 else 0
  | _ => 0

theorem stage_cons [DecidableEq R] {past : List (Event R)} {st : Stage R}
    (h : stage past = some st) (e : Event R) : stage (e :: past) = st.next e := by
  rw [stage, h, Option.bind_some]

/-- Each resource is finalized once for each time it has been put into the slot, except for
the one that is there. -/
theorem count_finalized [DecidableEq R] {past : List (Event R)} {st : Stage R}
    (h : stage past = some st) (r : R) :
    past.count (.finalized r) + st.alive r = past.count (.created r) := by
  induction past generalizing st with
  | nil =>
    obtain rfl := Option.some.inj h
    rfl
  | cons e past ih =>
    obtain ⟨st₀, hst₀, hnext⟩ := Option.bind_eq_some_iff.mp h
    have ih := ih hst₀
    cases st₀ <;> cases e <;> simp only [Stage.next, reduceCtorEq] at hnext
    case free.created r' =>
      obtain rfl := Option.some.inj hnext
      simp only [Stage.alive, List.count_cons, beq_iff_eq, Event.created.injEq, reduceCtorEq,
        if_false] at ih ⊢
      omega
    case held.taken r' n =>
      obtain rfl := Option.some.inj hnext
      simpa [Stage.alive] using ih
    case held.released r' n =>
      obtain rfl := Option.some.inj hnext
      split <;> simpa [Stage.alive] using ih
    case dying.finalized r' r'' =>
      split at hnext
      · rename_i heq
        obtain rfl := Option.some.inj hnext
        subst heq
        simp only [Stage.alive, List.count_cons, beq_iff_eq, Event.finalized.injEq, reduceCtorEq,
          if_false] at ih ⊢
        omega
      · cases hnext
    case finalized.returned =>
      obtain rfl := Option.some.inj hnext
      simpa [Stage.alive] using ih

inductive StackEvent (A : Type) where
  | pushed (a : A)
  | released (a : A)
  deriving DecidableEq

/-- What is left after a history, the latest event of which comes first, when each item
released is the last one of those left. -/
def remaining [DecidableEq A] : List (StackEvent A) → Option (List A)
  | [] => some []
  | .pushed a :: past => (remaining past).map (· ++ [a])
  | .released a :: past => (remaining past).bind fun l =>
    if l.getLast? = some a then some l.dropLast else none

theorem remaining_pushed [DecidableEq A] {past : List (StackEvent A)} {l : List A}
    (h : remaining past = some l) (a : A) :
    remaining (.pushed a :: past) = some (l ++ [a]) := by
  rw [remaining, h, Option.map_some]

theorem remaining_released [DecidableEq A] {past : List (StackEvent A)} {l : List A} {a : A}
    (h : remaining past = some (l ++ [a])) : remaining (.released a :: past) = some l := by
  rw [remaining, h, Option.bind_some, if_pos List.getLast?_concat, List.dropLast_concat]

end Libuo.Lifecycle
