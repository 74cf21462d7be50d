import Libuo.ThreadPoolBounds

/-!
# Whether a pool that pauses wakes up again

The manager waits without a timeout when there has been nothing to execute for long enough. The
flag that would make the next callback wake it is never set.
-/

namespace Libuo.ThreadPool
open Interleaving

variable {q q' : Shared} {l : Locals} {x : Bool} {i : ℕ} {c : Process} {cs cs' new : List Process}
  {p p' : Pool Shared Process}

/-- A manager that waits for the semaphore is woken by the next callback. -/
def Wakes (p : Pool Shared Process) : Prop :=
  ∀ l, .manager .wait l ∈ p.procs → p.shared.updateSem = 0 → p.shared.isPaused = true

/-- What a run has to respect: when the pause counter runs out, the target can be lowered, or the
semaphore has been posted. -/
def Busy (p : Pool Shared Process) : Process → Bool → Prop
  | .manager .pause l, _ => l.pauseCounter = 1 → p.shared.thrdCountTarget ≤ countMin →
    0 < p.shared.updateSem
  | _, _ => True

/-- The flag is not set, and the manager does not wait for long. -/
structure PauseInv (p : Pool Shared Process) : Prop where
  bounds : Inv p
  isPaused : p.shared.isPaused = false
  wait : ∀ l, .manager .wait l ∈ p.procs → 0 < p.shared.updateSem

theorem pauseInv_init : PauseInv init where
  bounds := inv_init
  isPaused := rfl
  wait l hl := by cases List.mem_singleton.mp hl

theorem PauseInv.perm (hperm : cs.Perm cs') (h : PauseInv ⟨q, cs⟩) : PauseInv ⟨q, cs'⟩ where
  bounds := h.bounds.perm hperm
  isPaused := h.isPaused
  wait l hl := h.wait l (hperm.mem_iff.mpr hl)

theorem PauseInv.wakes (h : PauseInv p) : Wakes p := fun l hl hsem =>
  absurd (h.wait l hl) (hsem ▸ Nat.lt_irrefl 0)

/-- A step of the manager does not set the flag, and leads to waiting only from the counter. -/
theorem Managed.pauses {pc : Manager} (h : Managed q l x pc q' new) :
    q'.isPaused = q.isPaused ∧ ∀ l', .manager .wait l' ∈ new →
      pc = .pause ∧ l.pauseCounter = 1 ∧ q.thrdCountTarget ≤ countMin ∧ q' = q := by
  cases h with
  | ends hquit => exact ⟨rfl, nofun⟩
  | search hpc hpc' =>
    refine ⟨rfl, fun l' hl' => ?_⟩
    cases List.mem_singleton.mp hl'
    cases hpc'
  | create hws =>
    refine ⟨rfl, fun l' hl' => ?_⟩
    rcases hws with rfl | rfl <;> simp at hl'
  | waits hcounter hmin => exact ⟨rfl, fun _ _ => ⟨rfl, hcounter, hmin, rfl⟩⟩
  | _ => exact ⟨rfl, fun l' hl' => by cases List.mem_singleton.mp hl'⟩

theorem PauseInv.start (h : PauseInv ⟨q, cs⟩) (hc : system.starts c = true) :
    PauseInv ⟨q, c :: cs⟩ := by
  refine ⟨h.bounds.start hc, h.isPaused, fun l hl => ?_⟩
  rcases List.mem_cons.mp hl with rfl | hl
  · cases hc
  · exact h.wait l hl

theorem PauseInv.turn (h : PauseInv ⟨q, c :: cs⟩) (hbusy : Busy ⟨q, c :: cs⟩ c x)
    (hstep : step q c x = some (q', new)) : PauseInv ⟨q', new ++ cs⟩ := by
  have hothers (l : Locals) (hl : .manager .wait l ∈ cs) : 0 < q.updateSem :=
    h.wait l (List.mem_cons_of_mem _ hl)
  cases c with
  | manager pc l =>
    obtain ⟨hpaused, hwait⟩ := (manage_cases hstep).pauses
    refine ⟨(h.bounds.turn hstep).1, hpaused.trans h.isPaused, fun l' hl' => ?_⟩
    rcases List.mem_append.mp hl' with hnew | hold
    · obtain ⟨rfl, hcounter, hmin, rfl⟩ := hwait l' hnew
      exact hbusy hcounter hmin
    · cases h.bounds.others _ hold
  | worker pc i =>
    have hexec := execute_cases (Option.some.inj hstep)
    refine ⟨(h.bounds.turn hstep).1, hexec.isPaused h.isPaused, fun l' hl' => ?_⟩
    rcases List.mem_append.mp hl' with hnew | hold
    · obtain ⟨pc', he, -⟩ := hexec.procs _ hnew
      cases he
    · exact Nat.lt_of_lt_of_le (hothers l' hold) hexec.updateSem
  | setQuitting =>
    refine ⟨(h.bounds.turn hstep).1, ?_, fun l' hl' => ?_⟩
    · cases hstep
      exact h.isPaused
    · cases hstep
      rcases List.mem_append.mp hl' with hnew | hold
      · cases List.mem_singleton.mp hnew
      · exact hothers l' hold
  | postUpdate =>
    refine ⟨(h.bounds.turn hstep).1, ?_, fun l' hl' => ?_⟩
    · cases hstep
      exact h.isPaused
    · cases hstep
      exact Nat.succ_pos _

theorem Busy.perm (_ : cs.Perm cs') (h : Busy ⟨q, cs⟩ c x) : Busy ⟨q, cs'⟩ c x := by
  unfold Busy at h ⊢
  split
  · exact h
  · trivial

/-- A step that does not respect the condition leaves the manager asleep. -/
theorem PauseInv.sleeps (h : PauseInv p) (hc : p.procs[i]? = some c) (hidle : ¬ Busy p c x) :
    ∃ p', system.next p (.turn i x) = some p' ∧ ¬ Wakes p' := by
  unfold Busy at hidle
  split at hidle
  case h_1 l =>
    simp only [Classical.not_imp, Nat.not_lt, Nat.le_zero] at hidle
    obtain ⟨hcounter, hmin, hsem⟩ := hidle
    have hmanage : manage p.shared l x .pause =
        some (p.shared, [.manager .wait { l with pauseCounter := 0 }]) := by
      rw [manage, if_pos hcounter, if_neg (Nat.not_lt.mpr hmin)]
    have hstep : system.step p.shared (.manager .pause l) x = _ := hmanage
    refine ⟨⟨p.shared, p.procs.take i ++ ([.manager .wait { l with pauseCounter := 0 }] ++
      p.procs.drop (i + 1))⟩, ?_, fun hwakes => ?_⟩
    · rw [System.next, hc, Option.bind_some, hstep]
      rfl
    · have htrue := hwakes { l with pauseCounter := 0 } (by simp) hsem
      exact absurd (htrue.symm.trans h.isPaused) (by decide)
  case h_2 => exact absurd trivial hidle

/-- Throughout a run a waiting manager is woken by the next callback if and only if it never comes
to wait: when its counter runs out the target is above the minimum or the semaphore posted. -/
theorem wakes_iff (es : List (Event Process Bool)) :
    system.Throughout Wakes init es ↔ system.Along Busy init es :=
  System.throughout_iff_along PauseInv.wakes (System.start_invariant PauseInv.perm PauseInv.start)
    (System.turn_invariant PauseInv.perm Busy.perm PauseInv.turn) PauseInv.sleeps pauseInv_init

/-- A timeout of the manager while no callback is executed. -/
def idleRound : List (Event Process Bool) := .turn 0 true :: List.replicate 6 (.turn 0 false)

/-- The manager adds the first threads, and then nothing happens until its counter has run out
three times. -/
def slept : List (Event Process Bool) :=
  List.replicate 32 (.turn 0 false) ++ (List.replicate 299 idleRound).flatten ++ idleRound.take 3

section

variable {q : Shared} {l : Locals} {ws : List Process}

theorem run_idleRound (hquit : q.isQuitting = false) (hexecuting : q.executingCount = 0)
    (hcompletions : q.completions = 0) (hcount : q.thrdCountTarget ≤ l.count)
    (hcounter : l.pauseCounter ≠ 1) :
    system.run ⟨q, .manager .timedWait l :: ws⟩ idleRound =
      some ⟨q, .manager .timedWait { l with pauseCounter := l.pauseCounter - 1 } :: ws⟩ := by
  have hclear : { q with completions := 0 } = q := by rw [← hcompletions]
  have hspawns : spawns q { l with pauseCounter := l.pauseCounter - 1 } = false := by
    simp [spawns, hcount]
  have hsteps : system.run ⟨q, .manager .timedWait l :: ws⟩ idleRound =
      some ⟨{ q with completions := 0 }, .manager (if spawns { q with completions := 0 }
        { l with pauseCounter := l.pauseCounter - 1 } then .add else .timedWait)
          { l with pauseCounter := l.pauseCounter - 1 } :: ws⟩ := by
    simp only [idleRound, List.replicate, System.run, System.next, system, step, manage, hquit,
      hexecuting, hcounter, List.getElem?_cons_zero, Option.bind_some, Option.map_some, if_true,
      if_false, Bool.false_eq_true, List.take_zero, List.nil_append, List.drop_succ_cons,
      List.drop_zero, List.cons_append]
  rw [hsteps, hclear, hspawns]
  rfl

theorem run_lastRound (hquit : q.isQuitting = false) (hexecuting : q.executingCount = 0)
    (hcompletions : q.completions = 0) (hcount : q.thrdCountTarget ≤ l.count)
    (hcounter : l.pauseCounter = 1) (htarget : countMin < q.thrdCountTarget) :
    system.run ⟨q, .manager .timedWait l :: ws⟩ idleRound =
      some ⟨{ q with thrdCountTarget := q.thrdCountTarget - 1 },
        .manager .timedWait { l with pauseCounter := pauseCounterIni } :: ws⟩ := by
  have hspawns : spawns { q with thrdCountTarget := q.thrdCountTarget - 1, completions := 0 }
      { l with pauseCounter := pauseCounterIni } = false := by
    simp only [spawns, Bool.and_eq_false_iff, decide_eq_false_iff_not]
    omega
  have hsteps : system.run ⟨q, .manager .timedWait l :: ws⟩ idleRound =
      some ⟨{ q with thrdCountTarget := q.thrdCountTarget - 1, completions := 0 },
        .manager (if spawns { q with thrdCountTarget := q.thrdCountTarget - 1, completions := 0 }
          { l with pauseCounter := pauseCounterIni } then .add else .timedWait)
            { l with pauseCounter := pauseCounterIni } :: ws⟩ := by
    simp only [idleRound, List.replicate, System.run, System.next, system, step, manage, hquit,
      hexecuting, hcounter, htarget, List.getElem?_cons_zero, Option.bind_some, Option.map_some,
      if_true, Bool.false_eq_true, if_false, List.take_zero, List.nil_append, List.drop_succ_cons,
      List.drop_zero, List.cons_append, gt_iff_lt]
  rw [hsteps, hspawns, ← hcompletions]
  rfl

theorem run_idleRounds (hquit : q.isQuitting = false) (hexecuting : q.executingCount = 0)
    (hcompletions : q.completions = 0) (hcount : q.thrdCountTarget ≤ l.count) {n : ℕ}
    (hcounter : n < l.pauseCounter) :
    system.run ⟨q, .manager .timedWait l :: ws⟩ (List.replicate n idleRound).flatten =
      some ⟨q, .manager .timedWait { l with pauseCounter := l.pauseCounter - n } :: ws⟩ := by
  induction n generalizing l with
  | zero => rfl
  | succ n ih =>
    have hround : system.run ⟨q, .manager .timedWait l :: ws⟩ idleRound = _ :=
      run_idleRound hquit hexecuting hcompletions hcount (by omega)
    rw [List.replicate_succ, List.flatten_cons, System.run_append, hround, Option.bind_some, ih]
    · rw [Nat.sub_sub, Nat.add_comm 1 n]
    · exact hcount
    · change n < l.pauseCounter - 1
      omega

theorem run_countdown (hquit : q.isQuitting = false) (hexecuting : q.executingCount = 0)
    (hcompletions : q.completions = 0) (hcount : q.thrdCountTarget ≤ l.count)
    (hcounter : l.pauseCounter = pauseCounterIni) (htarget : countMin < q.thrdCountTarget) :
    system.run ⟨q, .manager .timedWait l :: ws⟩
        (List.replicate pauseCounterIni idleRound).flatten =
      some ⟨{ q with thrdCountTarget := q.thrdCountTarget - 1 }, .manager .timedWait l :: ws⟩ := by
  have hrounds : system.run ⟨q, .manager .timedWait l :: ws⟩
      (List.replicate 99 idleRound).flatten = _ :=
    run_idleRounds hquit hexecuting hcompletions hcount (by rw [hcounter]; decide)
  have hone : l.pauseCounter - 99 = 1 := by rw [hcounter]; rfl
  have hlast : system.run
      ⟨q, .manager .timedWait { l with pauseCounter := l.pauseCounter - 99 } :: ws⟩ idleRound = _ :=
    run_lastRound hquit hexecuting hcompletions hcount hone htarget
  rw [show pauseCounterIni = 99 + 1 from rfl, List.replicate_add, List.flatten_append,
    System.run_append, hrounds, Option.bind_some, List.replicate_one, List.flatten_singleton, hlast,
    ← hcounter]

end

theorem run_slept : (system.run init slept).map
    (fun p => (p.shared.updateSem, p.shared.isPaused, p.procs.head?)) =
      some (0, false, some (.manager .wait ⟨3, 4, 0⟩)) := by
  obtain ⟨q, ws, hadded, hquit, hexecuting, hcompletions, htarget, hsem, hpaused⟩ :
      ∃ q ws, system.run init (List.replicate 32 (.turn 0 false)) =
          some ⟨q, .manager .timedWait ⟨3, 4, pauseCounterIni⟩ :: ws⟩ ∧
        q.isQuitting = false ∧ q.executingCount = 0 ∧ q.completions = 0 ∧
        q.thrdCountTarget = 4 ∧ q.updateSem = 0 ∧ q.isPaused = false :=
    ⟨_, _, rfl, rfl, rfl, rfl, rfl, rfl, rfl⟩
  have hfirst : system.run ⟨q, .manager .timedWait ⟨3, 4, pauseCounterIni⟩ :: ws⟩ _ = _ :=
    run_countdown hquit hexecuting hcompletions htarget.le rfl (htarget ▸ by decide)
  have hthree : q.thrdCountTarget - 1 = 3 := by rw [htarget]
  have hsecond : system.run ⟨{ q with thrdCountTarget := q.thrdCountTarget - 1 },
      .manager .timedWait ⟨3, 4, pauseCounterIni⟩ :: ws⟩ _ = _ :=
    run_countdown hquit hexecuting hcompletions (hthree.le.trans (by decide)) rfl
      (hthree.ge.trans_lt' (by decide))
  have htwo : q.thrdCountTarget - 1 - 1 = 2 := by rw [htarget]
  have hthird : system.run ⟨{ q with thrdCountTarget := q.thrdCountTarget - 1 - 1 },
      .manager .timedWait ⟨3, 4, pauseCounterIni⟩ :: ws⟩
        (List.replicate 99 idleRound).flatten = _ :=
    run_idleRounds (q := { q with thrdCountTarget := q.thrdCountTarget - 1 - 1 })
      (l := ⟨3, 4, pauseCounterIni⟩) hquit hexecuting hcompletions
      (htwo.le.trans (by decide)) (by decide)
  rw [slept, show 299 = pauseCounterIni + (pauseCounterIni + 99) from rfl, List.replicate_add,
    List.replicate_add, List.flatten_append, List.flatten_append, System.run_append,
    System.run_append, hadded, Option.bind_some, System.run_append, hfirst, Option.bind_some,
    System.run_append, hsecond, Option.bind_some, hthird, Option.bind_some]
  simp [idleRound, List.replicate, System.run, System.next, system, step, manage, hexecuting,
    htarget, hsem, hpaused, countMin, pauseCounterIni]

/-- The manager waits, and no callback will wake it. -/
theorem not_wakes_slept : ∃ p, system.run init slept = some p ∧ ¬ Wakes p := by
  obtain ⟨p, hr, hp⟩ := Option.map_eq_some_iff.mp run_slept
  obtain ⟨hsem, hp⟩ := Prod.mk.inj hp
  obtain ⟨hpaused, hhead⟩ := Prod.mk.inj hp
  refine ⟨p, hr, fun h => ?_⟩
  have htrue := h _ (List.mem_of_mem_head? hhead) hsem
  exact absurd (htrue.symm.trans hpaused) (by decide)

end Libuo.ThreadPool
