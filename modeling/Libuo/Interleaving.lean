import Mathlib.Data.List.Basic
import Mathlib.Tactic.Common

/-!
# Interleavings

Processes over a shared state take their steps one at a time, in any order. A step gets
an input from outside, and leaves any number of processes in the place of its own.
-/

namespace Libuo.Interleaving

/-- What the processes share, and those that are alive. -/
structure Pool (Q C : Type) where
  shared : Q
  procs : List C

/-- A process starts, or the one at a position takes a step. -/
inductive Event (C X : Type) where
  | start (c : C)
  | turn (i : ℕ) (x : X)

/-- Which processes may start at any time, and the step of a process; one that blocks has none. -/
structure System (Q C X : Type) where
  starts : C → Bool
  step : Q → C → X → Option (Q × List C)

namespace System

variable {Q C X : Type} (σ : System Q C X)

def next (p : Pool Q C) : Event C X → Option (Pool Q C)
  | .start c => if σ.starts c then some ⟨p.shared, p.procs ++ [c]⟩ else none
  | .turn i x =>
    p.procs[i]?.bind fun c => (σ.step p.shared c x).map fun r =>
      ⟨r.1, p.procs.take i ++ (r.2 ++ p.procs.drop (i + 1))⟩

def run : Pool Q C → List (Event C X) → Option (Pool Q C)
  | p, [] => some p
  | p, e :: es => (σ.next p e).bind fun p' => run p' es

/-- Every step of a run is allowed, in the pool before it, to the process that takes it. -/
def Along (A : Pool Q C → C → X → Prop) : Pool Q C → List (Event C X) → Prop
  | _, [] => True
  | p, .start c :: es => ∀ p', σ.next p (.start c) = some p' → Along A p' es
  | p, .turn i x :: es => (∀ c, p.procs[i]? = some c → A p c x) ∧
      ∀ p', σ.next p (.turn i x) = some p' → Along A p' es

/-- All pools that a run passes through have a property. -/
def Throughout (P : Pool Q C → Prop) : Pool Q C → List (Event C X) → Prop
  | p, [] => P p
  | p, e :: es => P p ∧ ∀ p', σ.next p e = some p' → Throughout P p' es

/-- A run can be checked against what its steps have to respect. -/
instance decidableAlong (A : Pool Q C → C → X → Prop) [∀ p c x, Decidable (A p c x)] :
    ∀ (p : Pool Q C) (es : List (Event C X)), Decidable (σ.Along A p es)
  | _, [] => isTrue trivial
  | p, .start c :: es =>
    have _ := fun p' => decidableAlong A p' es
    inferInstanceAs (Decidable (∀ p' ∈ σ.next p (.start c), σ.Along A p' es))
  | p, .turn i x :: es =>
    have _ := fun p' => decidableAlong A p' es
    inferInstanceAs (Decidable ((∀ c ∈ p.procs[i]?, A p c x) ∧
      ∀ p' ∈ σ.next p (.turn i x), σ.Along A p' es))

variable {σ} {p p' : Pool Q C}

theorem run_append (p : Pool Q C) (es es' : List (Event C X)) :
    σ.run p (es ++ es') = (σ.run p es).bind fun p' => σ.run p' es' := by
  induction es generalizing p with
  | nil => rfl
  | cons e es ih =>
    rw [List.cons_append, run, run]
    cases σ.next p e with
    | none => rfl
    | some p' => exact ih p'

theorem next_start {c : C} (h : σ.next p (.start c) = some p') :
    σ.starts c = true ∧ p' = ⟨p.shared, p.procs ++ [c]⟩ := by
  rw [next] at h
  split at h
  · exact ⟨‹_›, (Option.some.inj h).symm⟩
  · simp at h

theorem next_turn {i : ℕ} {x : X} (h : σ.next p (.turn i x) = some p') :
    ∃ l₁ c l₂ q cs, p.procs = l₁ ++ c :: l₂ ∧ l₁.length = i ∧
      σ.step p.shared c x = some (q, cs) ∧ p' = ⟨q, l₁ ++ (cs ++ l₂)⟩ := by
  rw [next, Option.bind_eq_some_iff] at h
  obtain ⟨c, hc, h⟩ := h
  obtain ⟨⟨q, cs⟩, hstep, rfl⟩ := Option.map_eq_some_iff.mp h
  obtain ⟨hi, rfl⟩ := List.getElem?_eq_some_iff.mp hc
  refine ⟨p.procs.take i, p.procs[i], p.procs.drop (i + 1), q, cs, ?_, ?_, hstep, rfl⟩
  · rw [← List.drop_eq_getElem_cons hi, List.take_append_drop]
  · rw [List.length_take]
    omega

theorem next_alone {q q' : Q} {c : C} {cs : List C} {x : X} (h : σ.step q c x = some (q', cs)) :
    σ.next ⟨q, [c]⟩ (.turn 0 x) = some ⟨q', cs⟩ := by
  simp [next, h]

/-- The step of a process that leaves one in its place. -/
theorem next_one {q' : Q} {c c' : C} {i : ℕ} {x : X} (hc : p.procs[i]? = some c)
    (h : σ.step p.shared c x = some (q', [c'])) :
    σ.next p (.turn i x) = some ⟨q', p.procs.set i c'⟩ := by
  obtain ⟨hi, -⟩ := List.getElem?_eq_some_iff.mp hc
  rw [next, hc, Option.bind_some, h, List.set_eq_take_append_cons_drop, if_pos hi]
  rfl

theorem along_start {A : Pool Q C → C → X → Prop} {c : C} {es : List (Event C X)}
    (hnext : σ.next p (.start c) = some p') (h : σ.Along A p' es) :
    σ.Along A p (.start c :: es) := fun _ hp => Option.some.inj (hnext.symm.trans hp) ▸ h

theorem along_turn {A : Pool Q C → C → X → Prop} {c : C} {i : ℕ} {x : X} {es : List (Event C X)}
    (hc : p.procs[i]? = some c) (hA : A p c x) (hnext : σ.next p (.turn i x) = some p')
    (h : σ.Along A p' es) : σ.Along A p (.turn i x :: es) :=
  ⟨fun _ hc' => Option.some.inj (hc.symm.trans hc') ▸ hA,
    fun _ hp => Option.some.inj (hnext.symm.trans hp) ▸ h⟩

theorem along_of_forall {A : Pool Q C → C → X → Prop} (h : ∀ p c x, A p c x)
    (es : List (Event C X)) : σ.Along A p es := by
  induction es generalizing p with
  | nil => trivial
  | cons e es ih =>
    cases e with
    | start c => exact fun _ _ => ih
    | turn i x => exact ⟨fun c _ => h p c x, fun _ _ => ih⟩

theorem Throughout.head {P : Pool Q C → Prop} {es : List (Event C X)}
    (h : σ.Throughout P p es) : P p := by
  cases es with
  | nil => exact h
  | cons e es => exact h.1

/-- A property that fails exactly after the steps that are not allowed holds throughout the runs
whose steps are all allowed. -/
theorem throughout_iff_along {I P : Pool Q C → Prop} {A : Pool Q C → C → X → Prop}
    (holds : ∀ {p}, I p → P p)
    (hstart : ∀ {p p' c}, I p → σ.next p (.start c) = some p' → I p')
    (hturn : ∀ {p p' i x}, I p → (∀ c, p.procs[i]? = some c → A p c x) →
      σ.next p (.turn i x) = some p' → I p')
    (hfails : ∀ {p i x c}, I p → p.procs[i]? = some c → ¬ A p c x →
      ∃ p', σ.next p (.turn i x) = some p' ∧ ¬ P p')
    {es : List (Event C X)} (h : I p) : σ.Throughout P p es ↔ σ.Along A p es := by
  induction es generalizing p with
  | nil => exact iff_of_true (holds h) trivial
  | cons e es ih =>
    cases e with
    | start c =>
      have hnext : ∀ p', σ.next p (.start c) = some p' →
          (σ.Throughout P p' es ↔ σ.Along A p' es) := fun p' hp => ih (hstart h hp)
      exact ⟨fun ht p' hp => (hnext p' hp).mp (ht.2 p' hp),
        fun ha => ⟨holds h, fun p' hp => (hnext p' hp).mpr (ha p' hp)⟩⟩
    | turn i x =>
      constructor
      · intro ht
        have hallowed : ∀ c, p.procs[i]? = some c → A p c x := by
          intro c hc
          by_contra hnot
          obtain ⟨p', hp, hfail⟩ := hfails h hc hnot
          exact hfail (ht.2 p' hp).head
        exact ⟨hallowed, fun p' hp => (ih (hturn h hallowed hp)).mp (ht.2 p' hp)⟩
      · intro ha
        exact ⟨holds h, fun p' hp => (ih (hturn h ha.1 hp)).mpr (ha.2 p' hp)⟩

theorem start_invariant {I : Pool Q C → Prop}
    (hperm : ∀ {q cs cs'}, cs.Perm cs' → I ⟨q, cs⟩ → I ⟨q, cs'⟩)
    (hstart : ∀ {q cs c}, I ⟨q, cs⟩ → σ.starts c = true → I ⟨q, c :: cs⟩)
    {c : C} (h : I p) (hnext : σ.next p (.start c) = some p') : I p' := by
  obtain ⟨q, procs⟩ := p
  obtain ⟨hc, rfl⟩ := next_start hnext
  exact hperm (List.perm_append_singleton c procs).symm (hstart h hc)

/-- The process that takes a step may be taken for the first one of the pool when the order does
not matter. -/
theorem turn_invariant {I : Pool Q C → Prop} {A : Pool Q C → C → X → Prop}
    (hperm : ∀ {q cs cs'}, cs.Perm cs' → I ⟨q, cs⟩ → I ⟨q, cs'⟩)
    (hallowed : ∀ {q cs cs' c x}, cs.Perm cs' → A ⟨q, cs⟩ c x → A ⟨q, cs'⟩ c x)
    (hturn : ∀ {q c cs x q' new}, I ⟨q, c :: cs⟩ → A ⟨q, c :: cs⟩ c x →
      σ.step q c x = some (q', new) → I ⟨q', new ++ cs⟩)
    {i : ℕ} {x : X} (h : I p) (hA : ∀ c, p.procs[i]? = some c → A p c x)
    (hnext : σ.next p (.turn i x) = some p') : I p' := by
  obtain ⟨q, procs⟩ := p
  obtain ⟨l₁, c, l₂, q', new, hprocs, rfl, hstep, rfl⟩ := next_turn hnext
  subst hprocs
  have hfirst : (l₁ ++ c :: l₂).Perm (c :: (l₁ ++ l₂)) := List.perm_middle
  have hA := hallowed hfirst (hA c (by simp))
  exact hperm (List.perm_append_comm_assoc _ _ _) (hturn (hperm hfirst h) hA hstep)

/-- What one start and one step preserve, a run preserves. -/
theorem run_invariant {I : Pool Q C → Prop} {A : Pool Q C → C → X → Prop}
    (hperm : ∀ {q cs cs'}, cs.Perm cs' → I ⟨q, cs⟩ → I ⟨q, cs'⟩)
    (hallowed : ∀ {q cs cs' c x}, cs.Perm cs' → A ⟨q, cs⟩ c x → A ⟨q, cs'⟩ c x)
    (hstart : ∀ {q cs c}, I ⟨q, cs⟩ → σ.starts c = true → I ⟨q, c :: cs⟩)
    (hturn : ∀ {q c cs x q' new}, I ⟨q, c :: cs⟩ → A ⟨q, c :: cs⟩ c x →
      σ.step q c x = some (q', new) → I ⟨q', new ++ cs⟩)
    {es : List (Event C X)} (h : I p) (hes : σ.Along A p es) (hr : σ.run p es = some p') :
    I p' := by
  induction es generalizing p with
  | nil => exact Option.some.inj hr ▸ h
  | cons e es ih =>
    rw [run, Option.bind_eq_some_iff] at hr
    obtain ⟨p₁, hnext, hr⟩ := hr
    cases e with
    | start c => exact ih (start_invariant hperm hstart h hnext) (hes _ hnext) hr
    | turn i x =>
      exact ih (turn_invariant hperm hallowed hturn h hes.1 hnext) (hes.2 _ hnext) hr

end System

end Libuo.Interleaving
