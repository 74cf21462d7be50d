import Libuo.Interleaving
import Mathlib.Algebra.Group.Nat.Defs
import Mathlib.Data.List.Count
import Mathlib.Data.List.Perm.Basic

/-!
# Waiting for SIGINT

A thread that waits is counted and then waits for the semaphore. The handler of the signal posts
the semaphore and takes one from the count, as long as there is any. It may interrupt any thread at
any time, and signals may arrive on several threads at once.
-/

namespace Libuo.Prog
open Interleaving

/-- The static variables of `uo_prog`. -/
structure Shared where
  sem : ℕ
  countWaiting : ℕ
  deriving DecidableEq

/-- A thread in `uo_prog_wait_for_sigint`, before the count or before the semaphore, or in
`uo_prog_sigint_handler`. -/
inductive Process where
  | enter | wait
  | load | post | sub
  deriving DecidableEq

/-- The two functions. `atomic_size_t` has 64 bits. -/
def step (q : Shared) : Process → Unit → Option (Shared × List Process)
  | .enter, _ => some ({ q with countWaiting := (q.countWaiting + 1) % 2 ^ 64 }, [.wait])
  | .wait, _ => if 0 < q.sem then some ({ q with sem := q.sem - 1 }, []) else none
  | .load, _ => some (q, if q.countWaiting = 0 then [] else [.post])
  | .post, _ => some ({ q with sem := q.sem + 1 }, [.sub])
  | .sub, _ => some ({ q with countWaiting := (q.countWaiting + (2 ^ 64 - 1)) % 2 ^ 64 }, [.load])

/-- Any thread may wait, and any signal may arrive. -/
def system : System Shared Process Unit where
  starts c := c = .enter ∨ c = .load
  step := step

def init : Pool Shared Process := ⟨⟨0, 0⟩, []⟩

/-- The handlers that have found a thread and not yet taken it from the count. -/
def taking (cs : List Process) : ℕ := cs.count .post + cs.count .sub

/-- Each thread that waits is still counted, or has been posted for, and no two handlers have found
the same one. -/
structure Balanced (p : Pool Shared Process) : Prop where
  sum : p.shared.sem + p.shared.countWaiting = p.procs.count .wait + p.procs.count .sub
  enough : taking p.procs ≤ p.shared.countWaiting
  bound : p.shared.countWaiting < 2 ^ 64

/-- What a run has to respect: a handler that goes on finds a thread that no other one has found,
and the count does not overflow. -/
def Untaken (p : Pool Shared Process) : Process → Unit → Prop
  | .load, _ => p.shared.countWaiting = 0 ∨ taking p.procs < p.shared.countWaiting
  | .enter, _ => p.shared.countWaiting + 1 < 2 ^ 64
  | _, _ => True

instance (p : Pool Shared Process) : (c : Process) → (x : Unit) → Decidable (Untaken p c x)
  | .load, _ => inferInstanceAs (Decidable (_ ∨ _))
  | .enter, _ => inferInstanceAs (Decidable (_ < _))
  | .wait, _ | .post, _ | .sub, _ => isTrue trivial

variable {q q' : Shared} {c : Process} {cs cs' new : List Process} {p p' : Pool Shared Process}
  {x : Unit} {i : ℕ}

theorem taking_perm (hperm : cs.Perm cs') : taking cs = taking cs' := by
  rw [taking, taking, hperm.count_eq, hperm.count_eq]

/-- What a process adds to either side of the balance. -/
def owed : Process → ℕ
  | .wait | .sub => 1
  | _ => 0

def takes : Process → ℕ
  | .post | .sub => 1
  | _ => 0

theorem taking_cons (c : Process) (cs : List Process) : taking (c :: cs) = takes c + taking cs := by
  rw [taking, taking, List.count_cons, List.count_cons]
  cases c <;> simp [takes] <;> omega

theorem balanced_cons : Balanced ⟨q, c :: cs⟩ ↔
    q.sem + q.countWaiting = owed c + (cs.count .wait + cs.count .sub) ∧
      takes c + taking cs ≤ q.countWaiting ∧ q.countWaiting < 2 ^ 64 := by
  have howed : (c :: cs).count .wait + (c :: cs).count .sub =
      owed c + (cs.count .wait + cs.count .sub) := by
    rw [List.count_cons, List.count_cons]
    cases c <;> simp [owed] <;> omega
  rw [← howed, ← taking_cons]
  exact ⟨fun h => ⟨h.sum, h.enough, h.bound⟩, fun h => ⟨h.1, h.2.1, h.2.2⟩⟩

theorem Balanced.perm (hperm : cs.Perm cs') (h : Balanced ⟨q, cs⟩) : Balanced ⟨q, cs'⟩ where
  sum := hperm.count_eq .wait ▸ hperm.count_eq .sub ▸ h.sum
  enough := taking_perm hperm ▸ h.enough
  bound := h.bound

theorem balanced_init : Balanced init where
  sum := rfl
  enough := Nat.le_refl _
  bound := by decide

theorem Balanced.start (h : Balanced ⟨q, cs⟩) (hc : system.starts c = true) :
    Balanced ⟨q, c :: cs⟩ := by
  have hc : c = .enter ∨ c = .load := of_decide_eq_true hc
  obtain ⟨hsum, htaking, hbound⟩ := h
  rcases hc with rfl | rfl <;> exact ⟨hsum, htaking, hbound⟩

theorem Balanced.turn (h : Balanced ⟨q, c :: cs⟩) (hA : Untaken ⟨q, c :: cs⟩ c x)
    (hstep : step q c x = some (q', new)) : Balanced ⟨q', new ++ cs⟩ := by
  obtain ⟨hsum, htaking, hbound⟩ := balanced_cons.mp h
  cases c with
  | enter =>
    obtain ⟨rfl, rfl⟩ := Prod.mk.inj (Option.some.inj hstep)
    change q.countWaiting + 1 < 2 ^ 64 at hA
    have hcount := Nat.mod_eq_of_lt hA
    rw [List.singleton_append, balanced_cons]
    simp only [owed, takes, hcount] at hsum htaking ⊢
    omega
  | wait =>
    rw [step] at hstep
    split at hstep
    · obtain ⟨rfl, rfl⟩ := Prod.mk.inj (Option.some.inj hstep)
      simp only [owed, takes, Nat.zero_add] at hsum htaking
      have hsum' : q.sem - 1 + q.countWaiting = cs.count .wait + cs.count .sub := by omega
      exact ⟨hsum', htaking, hbound⟩
    · cases hstep
  | load =>
    obtain ⟨rfl, rfl⟩ := Prod.mk.inj (Option.some.inj hstep)
    simp only [owed, takes, Nat.zero_add] at hsum htaking
    split
    · exact ⟨hsum, htaking, hbound⟩
    · rename_i hne
      rw [List.singleton_append, balanced_cons]
      rcases hA with hzero | hlt
      · exact absurd hzero hne
      · have hlt : taking (.load :: cs) < q.countWaiting := hlt
        rw [taking_cons] at hlt
        simp only [takes] at hlt
        simp only [owed, takes]
        omega
  | post =>
    obtain ⟨rfl, rfl⟩ := Prod.mk.inj (Option.some.inj hstep)
    rw [List.singleton_append, balanced_cons]
    simp only [owed, takes] at hsum htaking ⊢
    omega
  | sub =>
    obtain ⟨rfl, rfl⟩ := Prod.mk.inj (Option.some.inj hstep)
    rw [List.singleton_append, balanced_cons]
    simp only [owed, takes] at hsum htaking ⊢
    omega

theorem untaken_perm (hperm : cs.Perm cs') (h : Untaken ⟨q, cs⟩ c x) : Untaken ⟨q, cs'⟩ c x := by
  cases c with
  | load => exact h.imp_right fun hlt => taking_perm hperm ▸ hlt
  | enter | wait | post | sub => exact h

theorem not_balanced_turn (h : Balanced ⟨q, c :: cs⟩) (hA : ¬ Untaken ⟨q, c :: cs⟩ c x) :
    ∃ q' c', step q c x = some (q', [c']) ∧ ¬ Balanced ⟨q', c' :: cs⟩ := by
  obtain ⟨hsum, htaking, hbound⟩ := balanced_cons.mp h
  cases c with
  | enter =>
    refine ⟨_, _, rfl, fun h' => hA ?_⟩
    obtain ⟨hsum', -, hbound'⟩ := balanced_cons.mp h'
    simp only [owed] at hsum hsum'
    change q.countWaiting + 1 < 2 ^ 64
    omega
  | load =>
    obtain ⟨hne, hle⟩ := not_or.mp hA
    rw [taking_cons] at hle
    refine ⟨q, .post, ?_, fun h' => ?_⟩
    · rw [step, if_neg hne]
    · obtain ⟨-, htaking', -⟩ := balanced_cons.mp h'
      simp only [takes] at hle htaking'
      omega
  | wait | post | sub => exact absurd trivial hA

theorem not_balanced (h : Balanced p) (hc : p.procs[i]? = some c) (hA : ¬ Untaken p c x) :
    ∃ p', system.next p (.turn i x) = some p' ∧ ¬ Balanced p' := by
  obtain ⟨q, procs⟩ := p
  obtain ⟨hi, rfl⟩ := List.getElem?_eq_some_iff.mp hc
  have hperm : procs.Perm (procs[i] :: procs.eraseIdx i) :=
    (List.getElem_cons_eraseIdx_perm hi).symm
  obtain ⟨q', c', hstep, hnot⟩ :=
    not_balanced_turn (h.perm hperm) fun h' => hA (untaken_perm hperm.symm h')
  exact ⟨_, System.next_one hc hstep, fun h' => hnot (h'.perm (List.set_perm_cons_eraseIdx hi c'))⟩

/-- The balance is kept throughout a run if and only if no handler finds a thread that another one
has found. -/
theorem balanced_iff (es : List (Event Process Unit)) :
    system.Throughout Balanced init es ↔ system.Along Untaken init es := by
  refine System.throughout_iff_along (fun h => h) ?_ ?_ (fun h hc hA => not_balanced h hc hA)
    balanced_init
  · exact fun h => System.start_invariant Balanced.perm Balanced.start h
  · exact fun h => System.turn_invariant Balanced.perm untaken_perm Balanced.turn h

/-- Two handlers find the same thread, and there is one post too many. -/
example : system.run init [.start .enter, .turn 0 (), .start .load, .start .load, .turn 1 (),
    .turn 2 (), .turn 1 (), .turn 2 (), .turn 1 (), .turn 2 ()] =
      some ⟨⟨2, 2 ^ 64 - 1⟩, [.wait, .load, .load]⟩ := rfl

theorem Balanced.released (h : Balanced p) (hcount : p.shared.countWaiting = 0) :
    p.shared.sem = p.procs.count .wait := by
  have hsum := h.sum
  have henough := h.enough
  rw [taking] at henough
  omega

theorem next_last {procs : List Process} (hstep : step q c x = some (q', new)) :
    system.next ⟨q, procs ++ [c]⟩ (.turn procs.length x) = some ⟨q', procs ++ new⟩ := by
  change ((procs ++ [c])[procs.length]?.bind fun c => (step q c x).map fun r => _) = _
  rw [List.getElem?_concat_length, Option.bind_some, hstep]
  simp

theorem run_last {procs : List Process} {es : List (Event Process Unit)}
    (hstep : step q c () = some (q', new)) :
    system.run ⟨q, procs ++ [c]⟩ (.turn procs.length () :: es) =
      system.run ⟨q', procs ++ new⟩ es := by
  rw [System.run, next_last hstep, Option.bind_some]

/-- A handler that is not interrupted posts for each thread that is counted. -/
theorem handler_run (sem countWaiting : ℕ) (procs : List Process) (h : countWaiting < 2 ^ 64) :
    system.run ⟨⟨sem, countWaiting⟩, procs ++ [.load]⟩
      (List.replicate (3 * countWaiting + 1) (.turn procs.length ())) =
        some ⟨⟨sem + countWaiting, 0⟩, procs⟩ := by
  induction countWaiting generalizing sem with
  | zero =>
    rw [List.replicate_succ, run_last rfl]
    exact congrArg (fun l => some (Pool.mk _ l)) (List.append_nil procs)
  | succ n ih =>
    have hsub : (n + 1 + (2 ^ 64 - 1)) % 2 ^ 64 = n := by omega
    have hstep : step ⟨sem + 1, n + 1⟩ .sub () = some (⟨sem + 1, n⟩, [.load]) := by
      simp only [step, hsub]
    rw [show 3 * (n + 1) + 1 = 3 * n + 1 + 1 + 1 + 1 by omega, List.replicate_succ,
      List.replicate_succ, List.replicate_succ, run_last rfl, if_neg (Nat.succ_ne_zero n),
      run_last rfl, run_last hstep, ih _ (by omega), Nat.add_right_comm, Nat.add_assoc]

/-- When no handler is running, a signal lets exactly the threads go on that wait. -/
theorem signal_wakes {es : List (Event Process Unit)} (hrun : system.run init es = some p)
    (hes : system.Along Untaken init es) (hnone : taking p.procs = 0) :
    system.run p (.start .load ::
      List.replicate (3 * p.shared.countWaiting + 1) (.turn p.procs.length ())) =
        some ⟨⟨p.procs.count .wait, 0⟩, p.procs⟩ := by
  have h : Balanced p := System.run_invariant Balanced.perm untaken_perm Balanced.start
    Balanced.turn balanced_init hes hrun
  have hsum := h.sum
  rw [taking, Nat.add_eq_zero_iff] at hnone
  rw [hnone.2, Nat.add_zero] at hsum
  rw [← hsum]
  exact handler_run p.shared.sem p.shared.countWaiting p.procs h.bound

/-- Two threads wait, one of which is not yet counted. -/
theorem signal_wakes_one :
    system.run init [.start .enter, .start .enter, .turn 0 ()] =
        some ⟨⟨0, 1⟩, [.wait, .enter]⟩ ∧
      system.run ⟨⟨0, 1⟩, [.wait, .enter]⟩
        (.start .load :: List.replicate (3 * 1 + 1) (.turn 2 ())) =
          some ⟨⟨1, 0⟩, [.wait, .enter]⟩ := by
  have hrun : system.run init [.start .enter, .start .enter, .turn 0 ()] =
      some ⟨⟨0, 1⟩, [.wait, .enter]⟩ := rfl
  exact ⟨hrun, signal_wakes hrun (by decide) (by decide)⟩

end Libuo.Prog
