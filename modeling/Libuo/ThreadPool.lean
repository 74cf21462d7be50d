import Libuo.Interleaving
import Mathlib.Algebra.Order.Group.Nat
import Mathlib.Logic.Function.Basic

/-!
# A pool of threads and its manager

The manager adds threads as long as the count that it remembers is below the target, and moves
the target by one after each timeout. A thread that finds more threads than the target retires: it
compares the count with the value that it has read, and decrements it.
-/

namespace Libuo.ThreadPool
open Interleaving

def countIni : ℕ := 4

def countMin : ℕ := 2

def countMax : ℕ := 16

/-- `UO_CB_THRDPOOL_PAUSE_COUNTER`. -/
def pauseCounterIni : ℕ := 100

inductive ThrdState where
  | uninitialized
  | running
  | exited
  deriving DecidableEq

/-- `thrdpool`, with `is_quitting`. -/
structure Shared where
  isQuitting : Bool
  isPaused : Bool
  updateSem : ℕ
  thrdCount : ℕ
  executingCount : ℕ
  thrdCountTarget : ℕ
  cbThrds : ℕ → ThrdState
  completions : ℕ
  thrdTargetIncrease : Bool

/-- The variables of `uo_cb_manage_thrds`. -/
structure Locals where
  thrdI : ℕ
  count : ℕ
  pauseCounter : ℕ
  deriving DecidableEq

/-- The next step of `uo_cb_manage_thrds`. -/
inductive Manager where
  | start
  | load
  | loop
  | spawn
  | test
  | add
  | find
  | reset
  | claim
  | create
  | timedWait
  | executing
  | sample
  | adjust
  | pause
  | wait
  | clear
  deriving DecidableEq

/-- The next step of `uo_cb_execute`, with what it has read. -/
inductive Worker where
  | loop
  | dequeue
  | before
  | after
  | complete
  | exchange
  | post
  | load
  | target (count : ℕ)
  | compare (count target : ℕ)
  | exited
  deriving DecidableEq

inductive Process where
  | manager (pc : Manager) (l : Locals)
  | worker (pc : Worker) (thrdI : ℕ)
  | setQuitting
  | postUpdate
  deriving DecidableEq

def Locals.next (l : Locals) : Locals := { l with thrdI := (l.thrdI + 1) % countMax }

/-- The condition of the loop that adds threads. -/
def spawns (q : Shared) (l : Locals) : Bool :=
  l.count < q.thrdCountTarget && l.count < countMax

/-- The next direction, from whether the last one was correct. -/
def Shared.increases (q : Shared) (wasCorrect : Bool) : Bool :=
  !(wasCorrect ^^ q.thrdTargetIncrease)

/-- The target after a sample of the throughput. -/
def Shared.adjust (q : Shared) (wasCorrect : Bool) : Shared :=
  { q with
    thrdTargetIncrease := q.increases wasCorrect
    thrdCountTarget :=
      if q.increases wasCorrect then
        if q.thrdCountTarget < countMax then q.thrdCountTarget + 1 else q.thrdCountTarget
      else
        if q.thrdCountTarget > countMin then q.thrdCountTarget - 1 else q.thrdCountTarget }

/-- `uo_cb_manage_thrds`. From outside comes whether `pthread_create` fails, whether
`sem_timedwait` does, and whether the throughput has risen. -/
def manage (q : Shared) (l : Locals) (x : Bool) : Manager → Option (Shared × List Process)
  | .start => some ({ q with thrdCountTarget := countIni }, [.manager .load l])
  | .load => some (q, [.manager .loop { l with count := q.thrdCount }])
  | .loop => some (q, if q.isQuitting then [] else [.manager .spawn l])
  | .spawn => some (q, [.manager (if q.isQuitting then .timedWait else .test) l])
  | .test => some (q, [.manager (if spawns q l then .add else .timedWait) l])
  | .add =>
    some ({ q with thrdCount := q.thrdCount + 1 },
      [.manager .find { l with count := q.thrdCount + 1 }])
  | .find =>
    match q.cbThrds l.thrdI with
    | .uninitialized => some (q, [.manager .claim l])
    | .running => some (q, [.manager .find l.next])
    -- `pthread_join`
    | .exited => some (q, [.manager .reset l])
  | .reset =>
    some ({ q with cbThrds := Function.update q.cbThrds l.thrdI .uninitialized },
      [.manager .find l.next])
  | .claim =>
    some ({ q with cbThrds := Function.update q.cbThrds l.thrdI .running }, [.manager .create l])
  | .create =>
    some (q, .manager .spawn l :: if x then [] else [.worker .loop l.thrdI])
  | .timedWait =>
    if x then some (q, [.manager .executing l])
    else if q.updateSem = 0 then none
    else some ({ q with updateSem := q.updateSem - 1 }, [.manager .loop l])
  | .executing => some (q, [.manager (if q.executingCount = 0 then .pause else .sample) l])
  | .sample => some ({ q with completions := 0 }, [.manager .adjust l])
  | .adjust => some (q.adjust x, [.manager .loop l])
  | .pause =>
    if l.pauseCounter = 1 then
      if q.thrdCountTarget > countMin then
        some ({ q with thrdCountTarget := q.thrdCountTarget - 1 },
          [.manager .clear { l with pauseCounter := pauseCounterIni }])
      else some (q, [.manager .wait { l with pauseCounter := 0 }])
    else some (q, [.manager .clear { l with pauseCounter := l.pauseCounter - 1 }])
  | .wait =>
    if q.updateSem = 0 then none
    else some ({ q with updateSem := q.updateSem - 1 },
      [.manager .clear { l with pauseCounter := pauseCounterIni }])
  | .clear => some ({ q with completions := 0 }, [.manager .loop l])

/-- `uo_cb_execute`, with the notifications before and after a callback. From outside comes
whether there is a callback in the queue. -/
def execute (q : Shared) (i : ℕ) (x : Bool) : Worker → Shared × List Process
  | .loop => (q, [.worker (if q.isQuitting then .exited else .dequeue) i])
  | .dequeue => (q, [.worker (if x then .before else .load) i])
  | .before => ({ q with executingCount := q.executingCount + 1 }, [.worker .after i])
  | .after => ({ q with executingCount := q.executingCount - 1 }, [.worker .complete i])
  | .complete => ({ q with completions := q.completions + 1 }, [.worker .exchange i])
  | .exchange =>
    ({ q with isPaused := false }, [.worker (if q.isPaused then .post else .load) i])
  | .post => ({ q with updateSem := q.updateSem + 1 }, [.worker .load i])
  | .load => (q, [.worker (.target q.thrdCount) i])
  | .target count => (q, [.worker (.compare count q.thrdCountTarget) i])
  | .compare count target =>
    if count > target ∧ q.thrdCount = count then
      ({ q with thrdCount := count - 1 }, [.worker .exited i])
    else (q, [.worker .loop i])
  | .exited => ({ q with cbThrds := Function.update q.cbThrds i .exited }, [])

def step (q : Shared) : Process → Bool → Option (Shared × List Process)
  | .manager pc l, x => manage q l x pc
  | .worker pc i, x => some (execute q i x pc)
  | .setQuitting, _ => some ({ q with isQuitting := true }, [.postUpdate])
  | .postUpdate, _ => some ({ q with updateSem := q.updateSem + 1 }, [])

/-- The program may exit at any time. -/
def system : System Shared Process Bool where
  starts
    | .setQuitting => true
    | _ => false
  step := step

def init : Pool Shared Process where
  shared :=
    { isQuitting := false
      isPaused := false
      updateSem := 0
      thrdCount := 0
      executingCount := 0
      thrdCountTarget := 0
      cbThrds := fun _ => .uninitialized
      completions := 0
      thrdTargetIncrease := false }
  procs := [.manager .start ⟨0, 0, pauseCounterIni⟩]

variable {q q' : Shared} {l : Locals} {x : Bool} {i : ℕ} {new : List Process}

/-- A step between the addition to the count and the creation of the thread. -/
def Manager.searches : Manager → Bool
  | .find | .reset | .claim | .create => true
  | _ => false

/-- The outcomes of a step of the manager. -/
inductive Managed (q : Shared) (l : Locals) (x : Bool) : Manager → Shared → List Process → Prop
  | start : Managed q l x .start { q with thrdCountTarget := countIni } [.manager .load l]
  | load : Managed q l x .load q [.manager .loop { l with count := q.thrdCount }]
  | ends (h : q.isQuitting = true) : Managed q l x .loop q []
  | enters (h : q.isQuitting = false) : Managed q l x .loop q [.manager .spawn l]
  | breaks (h : q.isQuitting = true) : Managed q l x .spawn q [.manager .timedWait l]
  | tests : Managed q l x .spawn q [.manager .test l]
  | adds (h : spawns q l = true) : Managed q l x .test q [.manager .add l]
  | leaves (h : spawns q l = false) : Managed q l x .test q [.manager .timedWait l]
  | add : Managed q l x .add { q with thrdCount := q.thrdCount + 1 }
      [.manager .find { l with count := q.thrdCount + 1 }]
  | search {pc pc' : Manager} {thrdI : ℕ} {cbThrds : ℕ → ThrdState}
    (hpc : pc.searches = true) (hpc' : pc'.searches = true) :
    Managed q l x pc { q with cbThrds } [.manager pc' { l with thrdI }]
  | create {ws : List Process} (hws : ws = [] ∨ ws = [.worker .loop l.thrdI]) :
    Managed q l x .create q (.manager .spawn l :: ws)
  | timedOut : Managed q l x .timedWait q [.manager .executing l]
  | posted (h : 0 < q.updateSem) :
    Managed q l x .timedWait { q with updateSem := q.updateSem - 1 } [.manager .loop l]
  | idle : Managed q l x .executing q [.manager .pause l]
  | busy : Managed q l x .executing q [.manager .sample l]
  | sample : Managed q l x .sample { q with completions := 0 } [.manager .adjust l]
  | raise (h : q.increases x = true) (hmax : q.thrdCountTarget < countMax) :
    Managed q l x .adjust
      { q with thrdTargetIncrease := true, thrdCountTarget := q.thrdCountTarget + 1 }
      [.manager .loop l]
  | lower (h : q.increases x = false) (hmin : countMin < q.thrdCountTarget) :
    Managed q l x .adjust
      { q with thrdTargetIncrease := false, thrdCountTarget := q.thrdCountTarget - 1 }
      [.manager .loop l]
  | keep {thrdTargetIncrease : Bool} :
    Managed q l x .adjust { q with thrdTargetIncrease } [.manager .loop l]
  | idles (h : l.pauseCounter ≠ 1) :
    Managed q l x .pause q [.manager .clear { l with pauseCounter := l.pauseCounter - 1 }]
  | shrinks (h : l.pauseCounter = 1) (hmin : countMin < q.thrdCountTarget) :
    Managed q l x .pause { q with thrdCountTarget := q.thrdCountTarget - 1 }
      [.manager .clear { l with pauseCounter := pauseCounterIni }]
  | waits (h : l.pauseCounter = 1) (hmin : q.thrdCountTarget ≤ countMin) :
    Managed q l x .pause q [.manager .wait { l with pauseCounter := 0 }]
  | woken (h : 0 < q.updateSem) :
    Managed q l x .wait { q with updateSem := q.updateSem - 1 }
      [.manager .clear { l with pauseCounter := pauseCounterIni }]
  | clear : Managed q l x .clear { q with completions := 0 } [.manager .loop l]

theorem find_cases (h : manage q l x .find = some (q', new)) : Managed q l x .find q' new := by
  rw [manage] at h
  split at h
  · cases h
    exact .search rfl rfl
  · cases h
    exact .search rfl rfl
  · cases h
    exact .search rfl rfl

theorem adjust_cases : Managed q l x .adjust (q.adjust x) [.manager .loop l] := by
  rw [Shared.adjust]
  cases h : q.increases x with
  | true =>
    rw [if_pos rfl]
    by_cases hmax : q.thrdCountTarget < countMax
    · rw [if_pos hmax]
      exact .raise h hmax
    · rw [if_neg hmax]
      exact .keep
  | false =>
    rw [if_neg Bool.false_ne_true]
    by_cases hmin : q.thrdCountTarget > countMin
    · rw [if_pos hmin]
      exact .lower h hmin
    · rw [if_neg hmin]
      exact .keep

theorem pause_cases (h : manage q l x .pause = some (q', new)) : Managed q l x .pause q' new := by
  rw [manage] at h
  by_cases hcounter : l.pauseCounter = 1
  · rw [if_pos hcounter] at h
    by_cases hmin : q.thrdCountTarget > countMin
    · rw [if_pos hmin] at h
      cases h
      exact .shrinks hcounter hmin
    · rw [if_neg hmin] at h
      cases h
      exact .waits hcounter (Nat.not_lt.mp hmin)
  · rw [if_neg hcounter] at h
    cases h
    exact .idles hcounter

theorem manage_cases {pc : Manager} (h : manage q l x pc = some (q', new)) :
    Managed q l x pc q' new := by
  cases pc with
  | start =>
    cases h
    exact .start
  | load =>
    cases h
    exact .load
  | loop =>
    cases hquit : q.isQuitting with
    | true =>
      simp only [manage, hquit, if_true] at h
      cases h
      exact .ends hquit
    | false =>
      simp only [manage, hquit] at h
      cases h
      exact .enters hquit
  | spawn =>
    cases hquit : q.isQuitting with
    | true =>
      simp only [manage, hquit, if_true] at h
      cases h
      exact .breaks hquit
    | false =>
      simp only [manage, hquit] at h
      cases h
      exact .tests
  | test =>
    cases hspawns : spawns q l with
    | true =>
      simp only [manage, hspawns, if_true] at h
      cases h
      exact .adds hspawns
    | false =>
      simp only [manage, hspawns] at h
      cases h
      exact .leaves hspawns
  | add =>
    cases h
    exact .add
  | find => exact find_cases h
  | reset =>
    cases h
    exact .search rfl rfl
  | claim =>
    cases h
    exact .search rfl rfl
  | create =>
    cases h
    refine .create ?_
    cases x with
    | true => exact .inl rfl
    | false => exact .inr rfl
  | timedWait =>
    cases x with
    | true =>
      cases h
      exact .timedOut
    | false =>
      by_cases hsem : q.updateSem = 0
      · simp [manage, hsem] at h
      · simp only [manage, if_neg hsem] at h
        cases h
        exact .posted (Nat.pos_of_ne_zero hsem)
  | executing =>
    by_cases hzero : q.executingCount = 0
    · simp only [manage, if_pos hzero] at h
      cases h
      exact .idle
    · simp only [manage, if_neg hzero] at h
      cases h
      exact .busy
  | sample =>
    cases h
    exact .sample
  | adjust =>
    cases h
    exact adjust_cases
  | pause => exact pause_cases h
  | wait =>
    by_cases hsem : q.updateSem = 0
    · simp [manage, hsem] at h
    · simp only [manage, if_neg hsem] at h
      cases h
      exact .woken (Nat.pos_of_ne_zero hsem)
  | clear =>
    cases h
    exact .clear

/-- What a step of a thread of the pool leaves: it is still the same thread or ends, it may
decrement the count, and it has compared with the target that it has read. -/
structure Executed (q : Shared) (pc : Worker) (i : ℕ) (q' : Shared) (new : List Process) :
    Prop where
  isQuitting : q'.isQuitting = q.isQuitting
  isPaused : q.isPaused = false → q'.isPaused = false
  updateSem : q.updateSem ≤ q'.updateSem
  thrdCountTarget : q'.thrdCountTarget = q.thrdCountTarget
  thrdCount : q'.thrdCount = q.thrdCount ∨
    ∃ target, pc = .compare q.thrdCount target ∧ target < q.thrdCount ∧
      q'.thrdCount = q.thrdCount - 1
  procs : ∀ c ∈ new, ∃ pc', c = .worker pc' i ∧
    ∀ count target, pc' = .compare count target → target = q.thrdCountTarget

theorem execute_cases {pc : Worker} (h : execute q i x pc = (q', new)) :
    Executed q pc i q' new := by
  cases pc with
  | loop =>
    cases h
    refine ⟨rfl, id, Nat.le_refl _, rfl, .inl rfl, ?_⟩
    cases q.isQuitting <;> simp
  | dequeue =>
    cases h
    refine ⟨rfl, id, Nat.le_refl _, rfl, .inl rfl, ?_⟩
    cases x <;> simp
  | before =>
    cases h
    exact ⟨rfl, id, Nat.le_refl _, rfl, .inl rfl, by simp⟩
  | after =>
    cases h
    exact ⟨rfl, id, Nat.le_refl _, rfl, .inl rfl, by simp⟩
  | complete =>
    cases h
    exact ⟨rfl, id, Nat.le_refl _, rfl, .inl rfl, by simp⟩
  | exchange =>
    cases h
    refine ⟨rfl, fun _ => rfl, Nat.le_refl _, rfl, .inl rfl, ?_⟩
    cases q.isPaused <;> simp
  | post =>
    cases h
    exact ⟨rfl, id, Nat.le_succ _, rfl, .inl rfl, by simp⟩
  | load =>
    cases h
    exact ⟨rfl, id, Nat.le_refl _, rfl, .inl rfl, by simp⟩
  | target count =>
    cases h
    exact ⟨rfl, id, Nat.le_refl _, rfl, .inl rfl, by simp⟩
  | compare count target =>
    rw [execute] at h
    split at h
    case isTrue hcompare =>
      obtain ⟨hlt, rfl⟩ := hcompare
      cases h
      exact ⟨rfl, id, Nat.le_refl _, rfl, .inr ⟨target, rfl, hlt, rfl⟩, by simp⟩
    case isFalse =>
      cases h
      exact ⟨rfl, id, Nat.le_refl _, rfl, .inl rfl, by simp⟩
  | exited =>
    cases h
    exact ⟨rfl, id, Nat.le_refl _, rfl, .inl rfl, by simp⟩

end Libuo.ThreadPool
