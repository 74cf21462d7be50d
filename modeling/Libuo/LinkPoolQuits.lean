import Libuo.LinkPool
import Libuo.QueueConservation

/-!
# Threads that come and go

A thread takes a stack of blocks from the queue of its pool when it starts to use the pool, and
creates one when the queue has none; when it quits it puts the stack into the queue, for which it
waits in `sem_wait` while the queue is full. Nobody else takes stacks out.
-/

namespace Libuo.LinkPoolQuits
open Interleaving BlockingQueue LinkPool

/-- The queue of the pool, and the number of stacks that have been created. -/
structure Shared where
  queue : Queue ℕ
  created : ℕ

/-- A thread: in `thrd_init` or `thrd_quit`, with what is left of its call to the queue, or
initialized with its stack. -/
inductive Thread where
  | init (call : Call ℕ)
  | ready (stack : ℕ)
  | quit (call : Call ℕ)

def returned : Call ℕ → Option ℕ
  | .postEnqueue _ item => item
  | _ => none

/-- `thrd_init`, when `uo_queue_dequeue` has returned: without a stack it creates one. -/
def thrdInit (q : Shared) : Option ℕ → Shared × List Thread
  | some stack => (q, [.ready stack])
  | none => ({ q with created := q.created + 1 }, [.ready q.created])

def step (q : Shared) : Thread → Unit → Option (Shared × List Thread)
  | .init call, x =>
    (BlockingQueue.step queueCapacity q.queue call x).map fun r =>
      if r.2.isEmpty then thrdInit { q with queue := r.1 } (returned call)
      else ({ q with queue := r.1 }, r.2.map .init)
  | .ready stack, _ => some (q, [.quit (.enqueue stack true)])
  | .quit call, x =>
    (BlockingQueue.step queueCapacity q.queue call x).map fun r =>
      ({ q with queue := r.1 }, r.2.map .quit)

/-- Any thread may be initialized at any time. -/
def system : System Shared Thread Unit where
  starts
    | .init (.dequeue false) => true
    | _ => false
  step := step

/-- `uo_queue_create(0x10)`. -/
def create : Pool Shared Thread := ⟨⟨(BlockingQueue.create queueCapacity).shared, 0⟩, []⟩

/-- A thread does not wait in `sem_wait` when it quits. -/
def FindsSlot (p : Pool Shared Thread) : Prop :=
  ∀ stack, .quit (.enqueue stack true) ∈ p.procs →
    ∃ r, step p.shared (.quit (.enqueue stack true)) () = some r

/-- A thread that has a stack or is about to read the one that it takes. -/
def Thread.hasStack : Thread → Bool
  | .init call => call.holdsPermit
  | .ready _ | .quit _ => true

def Thread.holdsPermit : Thread → Bool
  | .init call | .quit call => call.holdsPermit
  | .ready _ => false

/-- A thread that has its stack and has not begun to hand it back. -/
def Thread.keepsStack : Thread → Bool
  | .init _ => false
  | .ready _ => true
  | .quit call => !call.holdsPermit

/-- The largest number of threads that have a stack at once. -/
def most : Pool Shared Thread → List (Event Thread Unit) → ℕ
  | p, [] => p.procs.countP Thread.hasStack
  | p, e :: es =>
    max (p.procs.countP Thread.hasStack) ((system.next p e).elim 0 fun p' => most p' es)

def Thread.Proper : Thread → Prop
  | .init (.dequeue false) | .init .addTail | .init (.read _) | .init (.postEnqueue _ _) => True
  | .ready _ => True
  | .quit (.enqueue _ true) | .quit (.addHead _) | .quit (.write _ _) | .quit .postDequeue => True
  | _ => False

variable {q q' : Shared} {c : Thread} {cs cs' new : List Thread} {p p' : Pool Shared Thread}
  {es : List (Event Thread Unit)} {x : Unit}

theorem countP_hasStack (cs : List Thread) : cs.countP Thread.hasStack =
    cs.countP Thread.holdsPermit + cs.countP Thread.keepsStack := by
  induction cs with
  | nil => rfl
  | cons c cs ih =>
    have hc : (if c.hasStack then 1 else 0) =
        (if c.holdsPermit then 1 else 0) + if c.keepsStack then 1 else 0 := by
      cases c with
      | init call => rfl
      | ready stack => rfl
      | quit call =>
        cases h : call.holdsPermit <;>
          simp [Thread.hasStack, Thread.holdsPermit, Thread.keepsStack, h]
    rw [List.countP_cons, List.countP_cons, List.countP_cons, ih, hc]
    omega

def held (q : Shared) (cs : List Thread) : ℕ := q.queue.dequeueSem + cs.countP Thread.hasStack

/-- What a step does to the semaphores and the stacks. -/
structure Effect (q : Shared) (c : Thread) (q' : Shared) (new : List Thread) : Prop where
  permits : q'.queue.enqueueSem + q'.queue.dequeueSem + new.countP Thread.holdsPermit =
    q.queue.enqueueSem + q.queue.dequeueSem + [c].countP Thread.holdsPermit
  keeps : held q' new = held q [c] ∨ held q' new = held q [c] + 1 ∧ q'.queue.dequeueSem = 0
  proper : ∀ c' ∈ new, c'.Proper

theorem step_init {call : Call ℕ} (hc : (Thread.init call).Proper)
    (h : step q (.init call) x = some (q', new)) : Effect q (.init call) q' new := by
  rw [step] at h
  obtain ⟨⟨queue, calls⟩, hstep, hr⟩ := Option.map_eq_some_iff.mp h
  cases call with
  | dequeue shouldBlock =>
    cases shouldBlock with
    | true => exact hc.elim
    | false =>
      by_cases hzero : q.queue.dequeueSem = 0
      · simp only [BlockingQueue.step, if_pos hzero] at hstep
        cases hstep
        cases hr
        exact ⟨rfl, .inr ⟨rfl, hzero⟩, by simp [Thread.Proper]⟩
      · simp only [BlockingQueue.step, if_neg hzero] at hstep
        cases hstep
        cases hr
        refine ⟨?_, .inl ?_, by simp [Thread.Proper]⟩ <;>
          simp [held, Thread.holdsPermit, Thread.hasStack, Call.holdsPermit] <;> omega
  | addTail =>
    cases hstep
    cases hr
    exact ⟨rfl, .inl rfl, by simp [Thread.Proper]⟩
  | read tail =>
    cases hstep
    cases hr
    exact ⟨rfl, .inl rfl, by simp [Thread.Proper]⟩
  | postEnqueue tail item =>
    cases hstep
    cases item with
    | none =>
      cases hr
      refine ⟨?_, .inl rfl, by simp [Thread.Proper]⟩
      simp [Thread.holdsPermit, Call.holdsPermit]
      omega
    | some stack =>
      cases hr
      refine ⟨?_, .inl rfl, by simp [Thread.Proper]⟩
      simp [Thread.holdsPermit, Call.holdsPermit]
      omega
  | _ => exact hc.elim

theorem step_quit {call : Call ℕ} (hc : (Thread.quit call).Proper)
    (h : step q (.quit call) x = some (q', new)) : Effect q (.quit call) q' new := by
  rw [step] at h
  obtain ⟨⟨queue, calls⟩, hstep, hr⟩ := Option.map_eq_some_iff.mp h
  cases call with
  | enqueue stack shouldBlock =>
    cases shouldBlock with
    | false => exact hc.elim
    | true =>
      by_cases hzero : q.queue.enqueueSem = 0
      · simp [BlockingQueue.step, hzero] at hstep
      · simp only [BlockingQueue.step, if_neg hzero] at hstep
        cases hstep
        cases hr
        refine ⟨?_, .inl rfl, by simp [Thread.Proper]⟩
        simp [Thread.holdsPermit, Call.holdsPermit]
        omega
  | addHead stack =>
    cases hstep
    cases hr
    exact ⟨rfl, .inl rfl, by simp [Thread.Proper]⟩
  | write stack head =>
    cases hstep
    cases hr
    exact ⟨rfl, .inl rfl, by simp [Thread.Proper]⟩
  | postDequeue =>
    cases hstep
    cases hr
    refine ⟨?_, .inl ?_, by simp⟩
    · simp [Thread.holdsPermit, Call.holdsPermit]
      omega
    · simp [held, Thread.hasStack]
  | _ => exact hc.elim

theorem step_effect (hc : c.Proper) (h : step q c x = some (q', new)) : Effect q c q' new := by
  cases c with
  | init call => exact step_init hc h
  | ready stack =>
    cases h
    exact ⟨rfl, .inl rfl, by simp [Thread.Proper]⟩
  | quit call => exact step_quit hc h

/-- The permits of the queue are the free slots, the stacks in it and the calls under way. -/
structure Inv (p : Pool Shared Thread) : Prop where
  permits : p.shared.queue.enqueueSem + p.shared.queue.dequeueSem +
    p.procs.countP Thread.holdsPermit = queueCapacity
  proper : ∀ c ∈ p.procs, c.Proper

theorem inv_create : Inv create := ⟨rfl, by simp [create]⟩

theorem start_eq (h : system.starts c = true) : c = .init (.dequeue false) := by
  cases c with
  | init call =>
    cases call with
    | dequeue shouldBlock =>
      cases shouldBlock with
      | false => rfl
      | true => cases h
    | _ => cases h
  | _ => cases h

/-- One step of the pool keeps the invariant, and either keeps the number of stacks or adds one to
threads that have all there are. -/
theorem Inv.next {e : Event Thread Unit} (h : Inv p) (hnext : system.next p e = some p') :
    Inv p' ∧ max (held p.shared p.procs) (p'.procs.countP Thread.hasStack) =
      held p'.shared p'.procs := by
  cases e with
  | start c =>
    obtain ⟨hc, rfl⟩ := System.next_start hnext
    obtain rfl := start_eq hc
    refine ⟨⟨?_, fun c hmem => ?_⟩, ?_⟩
    · rw [List.countP_append]
      exact h.permits
    · rcases List.mem_append.mp hmem with hold | hnew
      · exact h.proper c hold
      · rw [List.mem_singleton.mp hnew]
        trivial
    · simp [held, List.countP_append, Thread.hasStack, Call.holdsPermit]
  | turn i x =>
    obtain ⟨l₁, c, l₂, q', new, hprocs, -, hstep, rfl⟩ := System.next_turn hnext
    obtain ⟨hpermits, hproper⟩ := h
    rw [hprocs] at hpermits hproper
    have heffect := step_effect (hproper c (by simp)) hstep
    have hkeeps := heffect.keeps
    refine ⟨⟨?_, fun c' hmem => ?_⟩, ?_⟩
    · have := heffect.permits
      simp only [List.countP_append, List.countP_cons, List.countP_nil] at hpermits this ⊢
      omega
    · simp only [List.mem_append] at hmem
      rcases hmem with hmem | hmem | hmem
      · exact hproper c' (by simp [hmem])
      · exact heffect.proper c' hmem
      · exact hproper c' (by simp [hmem])
    · simp only [held, hprocs, List.countP_append, List.countP_cons, List.countP_nil] at hkeeps ⊢
      omega

theorem Inv.run (h : Inv p) (hr : system.run p es = some p') :
    Inv p' ∧ max (held p.shared p.procs) (most p es) = held p'.shared p'.procs := by
  induction es generalizing p with
  | nil =>
    obtain rfl := Option.some.inj hr
    refine ⟨h, Nat.max_eq_left ?_⟩
    rw [most, held]
    omega
  | cons e es ih =>
    rw [System.run, Option.bind_eq_some_iff] at hr
    obtain ⟨p₁, hnext, hr⟩ := hr
    obtain ⟨h₁, hheld⟩ := h.next hnext
    obtain ⟨h', hmost⟩ := ih h₁ hr
    refine ⟨h', ?_⟩
    rw [most, hnext, Option.elim_some, ← hmost, ← hheld]
    have hle : p.procs.countP Thread.hasStack ≤ held p.shared p.procs := Nat.le_add_left _ _
    have hle₁ : p₁.procs.countP Thread.hasStack ≤ most p₁ es := by
      cases es with
      | nil => exact Nat.le_refl _
      | cons e es => exact Nat.le_max_left _ _
    omega

theorem enqueueSem_add_most (hr : system.run create es = some p) :
    p.shared.queue.enqueueSem + most create es =
      queueCapacity + p.procs.countP Thread.keepsStack := by
  obtain ⟨h, hmost⟩ := inv_create.run hr
  have hpermits := h.permits
  have hzero : held create.shared create.procs = 0 := rfl
  rw [hzero, Nat.zero_max, held, countP_hasStack] at hmost
  omega

theorem quit_finds {stack : ℕ} : (∃ r, step q (.quit (.enqueue stack true)) () = some r) ↔
    q.queue.enqueueSem ≠ 0 := by
  by_cases hzero : q.queue.enqueueSem = 0
  · simp [step, BlockingQueue.step, hzero]
  · simp [step, BlockingQueue.step, hzero]

/-- No thread that quits waits if and only if fewer threads had stacks at once than the queue has
slots and threads keep theirs. -/
theorem findsSlot_iff (hr : system.run create es = some p) : FindsSlot p ↔
    ((∃ stack, .quit (.enqueue stack true) ∈ p.procs) →
      most create es < queueCapacity + p.procs.countP Thread.keepsStack) := by
  have hslots := enqueueSem_add_most hr
  constructor
  · rintro h ⟨stack, hmem⟩
    have := quit_finds.mp (h stack hmem)
    omega
  · intro h stack hmem
    have := h ⟨stack, hmem⟩
    exact quit_finds.mpr (by omega)

/-- Three threads are initialized and one of them quits; a fourth takes the stack that it has
handed back, and another one is about to quit. -/
def handover : List (Event Thread Unit) :=
  List.replicate 3 (.start (.init (.dequeue false))) ++ [.turn 0 (), .turn 1 (), .turn 2 ()] ++
    List.replicate 5 (.turn 0 ()) ++ [.start (.init (.dequeue false))] ++
    List.replicate 4 (.turn 2 ()) ++ [.turn 0 ()]

theorem findsSlot_iff_handover : ∃ p, system.run create handover = some p ∧
    p.procs = [.quit (.enqueue 1 true), .ready 2, .ready 0] ∧ FindsSlot p := by
  obtain ⟨p, hr, hprocs⟩ : ∃ p, system.run create handover = some p ∧
    p.procs = [.quit (.enqueue 1 true), .ready 2, .ready 0] := ⟨_, rfl, rfl⟩
  have hmost : most create handover = 3 := rfl
  refine ⟨p, hr, hprocs, (findsSlot_iff hr).mpr fun _ => ?_⟩
  rw [hmost, queueCapacity]
  omega

/-- As many threads at once as the queue has slots never wait. -/
theorem findsSlot_of_most_le (hr : system.run create es = some p)
    (hmost : most create es ≤ queueCapacity) : FindsSlot p := by
  intro stack hmem
  have hpos : 0 < p.procs.countP Thread.keepsStack := List.countP_pos_iff.mpr ⟨_, hmem, rfl⟩
  have := enqueueSem_add_most hr
  exact quit_finds.mpr (by omega)

def seventeen : List (Event Thread Unit) :=
  List.replicate 17 (.start (.init (.dequeue false))) ++
    (List.range 17).map (.turn · ()) ++ List.replicate 81 (.turn 0 ())

/-- Seventeen threads quit one after the other. The last one is alone, and waits. -/
theorem not_findsSlot_seventeen : ∃ p, system.run create seventeen = some p ∧
    p.procs = [.quit (.enqueue 16 true)] ∧ ¬ FindsSlot p := by
  refine ⟨_, rfl, rfl, fun h => ?_⟩
  obtain ⟨r, hr⟩ := h 16 List.mem_cons_self
  cases hr

end Libuo.LinkPoolQuits
