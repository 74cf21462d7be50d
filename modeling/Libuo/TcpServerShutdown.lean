import Libuo.QueueConservation
import Libuo.TcpServer

/-!
# A server is destroyed

The thread that destroys a server puts its notice into the queue before it wakes the thread
that accepts connections, which is the one that takes notices out. When the queue is full and
no connection comes, the one waits in `sem_wait` and the other in `accept`, and neither is woken.
-/

namespace Libuo.TcpServer
open Interleaving Interleaving.System
open BlockingQueue (Queue Call)

/-- The thread that accepts connections. -/
def Thread.isAcceptor : Thread → Bool
  | .accept | .accepted _ | .opened _ | .drain _ | .finish | .finishing _ => true
  | _ => false

/-- The thread that destroys the server. -/
def Thread.isDestroyer : Thread → Bool
  | .destroy | .stop _ | .wakeUp | .join => true
  | _ => false

/-- A call that puts a notice into the queue. -/
def isEnqueue : Call ℤ → Bool
  | .enqueue _ _ | .addHead _ | .write _ _ | .postDequeue => true
  | _ => false

/-- The accepting thread takes notices out, the others put them in. -/
def Thread.isProper : Thread → Bool
  | .drain call | .finishing call => !isEnqueue call
  | .stop call | .notify _ call => isEnqueue call
  | _ => true

/-- There is one thread of each kind. -/
structure Alone (procs : List Thread) : Prop where
  acceptors : procs.countP Thread.isAcceptor ≤ 1
  destroyers : procs.countP Thread.isDestroyer ≤ 1
  proper : ∀ c ∈ procs, c.isProper = true

/-- The notice of `uo_tcp_server_destroy` has no slot yet. -/
def Unsent (procs : List Thread) : Prop :=
  .destroy ∈ procs ∨ .stop (.enqueue (-1) true) ∈ procs

/-- `uo_tcp_server_destroy` waits for a slot of the full queue, and the thread that takes notices
out waits for a connection. -/
structure Stuck (p : Pool Server Thread) : Prop where
  destroy : .stop (.enqueue (-1) true) ∈ p.procs
  full : p.shared.closingConns.enqueueSem = 0
  accept : .accept ∈ p.procs
  waiting : p.shared.waiting = 0

/-- As long as the notice of `uo_tcp_server_destroy` has no slot and no connection is waiting, the
last slot is not taken by a close notice while the accepting thread waits, and this thread does
not wait when all slots are taken. -/
def KeepsRoom (p : Pool Server Thread) : Thread → Input → Prop
  | .notify _ (.enqueue _ _), _ => p.shared.waiting = 0 → Unsent p.procs → .accept ∈ p.procs →
      1 < p.shared.closingConns.enqueueSem
  | .accepted none, _ => p.shared.waiting = 0 → Unsent p.procs → p.shared.isClosing = false →
      0 < p.shared.closingConns.enqueueSem
  | .drain (.dequeue _), _ => p.shared.waiting = 0 → Unsent p.procs →
      p.shared.closingConns.dequeueSem = 0 → 0 < p.shared.closingConns.enqueueSem
  | _, _ => True

/-- A slot is free for the notice of `uo_tcp_server_destroy`. -/
def Room (p : Pool Server Thread) : Prop :=
  p.shared.waiting = 0 → Unsent p.procs → .accept ∈ p.procs →
    0 < p.shared.closingConns.enqueueSem

variable {s s' : Server} {c d : Thread} {cs cs' new : List Thread} {x : Input} {q q' : Queue ℤ}
  {call call' : Call ℤ} {next : Option (Call ℤ)}

theorem not_stuck_of_room {p : Pool Server Thread} (h : Room p) : ¬ Stuck p := fun hs => by
  have := h hs.waiting (.inr hs.destroy) hs.accept
  rw [hs.full] at this
  exact Nat.lt_irrefl _ this

theorem queueStep_cases (h : s.queueStep call = some (s', next)) :
    ∃ q' new, BlockingQueue.Step capacity s.closingConns call q' new ∧
      s' = { s with closingConns := q' } ∧ next = new.head? := by
  obtain ⟨⟨q', new⟩, hq, hr⟩ := Option.map_eq_some_iff.mp h
  obtain ⟨rfl, rfl⟩ := Prod.mk.inj hr
  exact ⟨q', new, BlockingQueue.step_cases hq, rfl, rfl⟩

theorem isEnqueue_next (h : s.queueStep call = some (s', some call')) :
    isEnqueue call' = isEnqueue call := by
  obtain ⟨q', calls, hstep, -, hnext⟩ := queueStep_cases h
  cases hstep <;> simp at hnext <;> subst hnext <;> rfl

theorem next_ne_start {first : Call ℤ} (h : s.queueStep call = some (s', some call'))
    (hfirst : (BlockingQueue.system ℤ capacity).starts first = true) : call' ≠ first := by
  obtain ⟨q', calls, hstep, -, hnext⟩ := queueStep_cases h
  rintro rfl
  cases hstep <;> simp at hnext <;> subst hnext <;> cases hfirst

/-- Of the calls that put a notice in, only one that takes a slot changes their number. -/
theorem enqueueSem_eq (h : isEnqueue call = true)
    (hstep : BlockingQueue.Step capacity q call q' new') : q'.enqueueSem = q.enqueueSem ∨
      ∃ item b, call = .enqueue item b ∧ 0 < q.enqueueSem ∧ q'.enqueueSem = q.enqueueSem - 1 := by
  cases hstep with
  | enqueue hpos => exact .inr ⟨_, _, rfl, hpos, rfl⟩
  | postEnqueue => exact nomatch h
  | _ => exact .inl rfl

theorem dequeue_refused {b : Bool} (h : s.queueStep (.dequeue b) = some (s', none)) :
    s.closingConns.dequeueSem = 0 ∧ s' = s := by
  obtain ⟨r, hq, hr⟩ := Option.map_eq_some_iff.mp h
  rw [BlockingQueue.step] at hq
  split at hq
  · rename_i hsem
    split at hq
    · cases hq
    · obtain rfl := Option.some.inj hq
      exact ⟨hsem, (Prod.mk.inj hr).1.symm⟩
  · obtain rfl := Option.some.inj hq
    cases hr

theorem countP_step {f : Thread → Bool} {n : ℕ} (h : (c :: cs).countP f ≤ n)
    (hnew : new.countP f ≤ [c].countP f) : (new ++ cs).countP f ≤ n := by
  rw [← List.singleton_append, List.countP_append] at h
  rw [List.countP_append]
  omega

theorem alone_step (h : Alone (c :: cs)) (hstep : step s c x = some (s', new)) :
    Alone (new ++ cs) := by
  obtain ⟨hacceptors, hdestroyers, hproper⟩ := h
  obtain ⟨hc, hcs⟩ := List.forall_mem_cons.mp hproper
  refine ⟨countP_step hacceptors ?_, countP_step hdestroyers ?_,
    List.forall_mem_append.mpr ⟨?_, hcs⟩⟩
  · cases step_cases hstep <;> simp [List.countP_cons, Thread.isAcceptor]
  · cases step_cases hstep <;> simp [List.countP_cons, Thread.isDestroyer]
  · cases step_cases hstep with
    | drain _ hq | finishing _ hq | stop hq | notify _ hq =>
      simpa [Thread.isProper, isEnqueue_next hq] using hc
    | _ => simp [Thread.isProper, isEnqueue]

theorem Alone.not_mem_of_acceptor (h : Alone (c :: cs)) (hc : c.isAcceptor = true)
    (hd : d.isAcceptor = true) : d ∉ cs := fun hmem => by
  have := h.acceptors
  rw [List.countP_cons, if_pos hc] at this
  exact List.countP_eq_zero.mp (by omega : cs.countP Thread.isAcceptor = 0) d hmem hd

theorem Alone.not_unsent (h : Alone (c :: cs)) (hc : c.isDestroyer = true) : ¬ Unsent cs := by
  have := h.destroyers
  rw [List.countP_cons, if_pos hc] at this
  have hzero := List.countP_eq_zero.mp (by omega : cs.countP Thread.isDestroyer = 0)
  exact fun hu => hu.elim (fun hu => hzero _ hu rfl) fun hu => hzero _ hu rfl

theorem Alone.perm (hperm : cs.Perm cs') (h : Alone cs) : Alone cs' :=
  ⟨hperm.countP_eq _ ▸ h.acceptors, hperm.countP_eq _ ▸ h.destroyers,
    fun d hd => h.proper d (hperm.mem_iff.mpr hd)⟩

theorem starts_kind (h : system.starts c = true) :
    c.isAcceptor = false ∧ c.isDestroyer = false ∧ c.isProper = true := by
  cases c <;> first | exact ⟨rfl, rfl, rfl⟩ | exact nomatch h

theorem Alone.start (h : Alone cs) (hc : system.starts c = true) : Alone (c :: cs) := by
  obtain ⟨hacceptor, hdestroyer, hproper⟩ := starts_kind hc
  refine ⟨?_, ?_, List.forall_mem_cons.mpr ⟨hproper, h.proper⟩⟩
  · rw [List.countP_cons, hacceptor]
    exact h.acceptors
  · rw [List.countP_cons, hdestroyer]
    exact h.destroyers

theorem alone_start : Alone start.procs := ⟨by decide, by decide, by decide⟩

theorem unsent_append (h : Unsent (new ++ cs)) : Unsent new ∨ Unsent cs := by
  simp only [Unsent, List.mem_append] at h ⊢
  tauto

theorem Unsent.cons (h : Unsent cs) : Unsent (c :: cs) := h.imp (.tail _) (.tail _)

/-- A step of a thread that is neither the accepting one nor the one that destroys the server. -/
theorem Room.other (h : Room ⟨s, c :: cs⟩) (hwaiting : s.waiting ≤ s'.waiting)
    (hsem : s.waiting = 0 → Unsent (c :: cs) → .accept ∈ c :: cs →
      0 < s.closingConns.enqueueSem → 0 < s'.closingConns.enqueueSem)
    (hunsent : ¬ Unsent new) (haccept : .accept ∉ new) : Room ⟨s', new ++ cs⟩ := by
  intro hw hu ha
  have hw : s.waiting = 0 := Nat.le_zero.mp (hwaiting.trans_eq hw)
  have hu : Unsent (c :: cs) := ((unsent_append hu).resolve_left hunsent).cons
  have ha : .accept ∈ c :: cs := .tail _ ((List.mem_append.mp ha).resolve_left haccept)
  exact hsem hw hu ha (h hw hu ha)

/-- A step of the accepting thread that does not end in `accept`. -/
theorem Room.acceptor (h : Alone (c :: cs)) (hc : c.isAcceptor = true) (hnew : .accept ∉ new) :
    Room ⟨s', new ++ cs⟩ := fun _ _ ha =>
  absurd ((List.mem_append.mp ha).resolve_left hnew) (h.not_mem_of_acceptor hc rfl)

/-- A step of the thread that destroys the server, after its notice has got a slot. -/
theorem Room.destroyer (h : Alone (c :: cs)) (hc : c.isDestroyer = true) (hnew : ¬ Unsent new) :
    Room ⟨s', new ++ cs⟩ := fun _ hu _ =>
  absurd ((unsent_append hu).resolve_left hnew) (h.not_unsent hc)

theorem room_notify {conn : Conn} (h : Room ⟨s, .notify conn call :: cs⟩)
    (hproper : isEnqueue call = true)
    (hc : KeepsRoom ⟨s, .notify conn call :: cs⟩ (.notify conn call) x)
    (hq : s.queueStep call = some (s', next)) (hunsent : ¬ Unsent new) (haccept : .accept ∉ new) :
    Room ⟨s', new ++ cs⟩ := by
  obtain ⟨q', calls, hstep, rfl, -⟩ := queueStep_cases hq
  refine h.other le_rfl (fun hw hu ha hpos => ?_) hunsent haccept
  change 0 < q'.enqueueSem
  rcases enqueueSem_eq hproper hstep with hsem | ⟨item, b, rfl, -, hsem⟩
  · rwa [hsem]
  · rw [hsem]
    exact Nat.sub_pos_of_lt (hc hw hu ha)

/-- When the accepting thread finds no more notices, all slots may be taken by notices on their
way. -/
theorem room_drained (hproper : isEnqueue call = false)
    (hc : KeepsRoom ⟨s, .drain call :: cs⟩ (.drain call) x)
    (hq : s.queueStep call = some (s', none)) : Room ⟨s', [.accept] ++ cs⟩ := by
  intro hw hu _
  have hu : Unsent (.drain call :: cs) :=
    ((unsent_append hu).resolve_left (by simp [Unsent])).cons
  cases call with
  | dequeue b =>
    obtain ⟨hsem, rfl⟩ := dequeue_refused hq
    exact hc hw hu hsem
  | postEnqueue tail item =>
    obtain ⟨r, hq, hr⟩ := Option.map_eq_some_iff.mp hq
    obtain rfl := Option.some.inj hq
    obtain ⟨rfl, -⟩ := Prod.mk.inj hr
    exact Nat.succ_pos _
  | addTail | read tail =>
    obtain ⟨r, hq, hr⟩ := Option.map_eq_some_iff.mp hq
    obtain rfl := Option.some.inj hq
    exact nomatch (Prod.mk.inj hr).2
  | _ => exact nomatch hproper

theorem room_step (h : Room ⟨s, c :: cs⟩) (ha : Alone (c :: cs))
    (hc : KeepsRoom ⟨s, c :: cs⟩ c x) (hstep : step s c x = some (s', new)) :
    Room ⟨s', new ++ cs⟩ := by
  have hproper := ha.proper c (.head _)
  cases step_cases hstep with
  | again _ hclosing =>
    exact fun hw hu _ => hc hw ((unsent_append hu).resolve_left (by simp [Unsent])).cons hclosing
  | drained _ hq _ => exact room_drained (by simpa [Thread.isProper] using hproper) hc hq
  | destroy => exact fun hw _ ha => h hw (.inl (.head _)) (by simpa using ha)
  | stop hq =>
    refine .destroyer ha rfl fun hu => ?_
    rcases hu with hu | hu
    · exact nomatch List.mem_singleton.mp hu
    · exact next_ne_start hq rfl (Thread.stop.inj (List.mem_singleton.mp hu)).symm
  | stopped _ | cancel | wakeUp | join _ => exact .destroyer ha rfl (by simp [Unsent])
  | notify _ hq | notified _ hq =>
    exact room_notify h hproper hc hq (by simp [Unsent]) (by simp)
  | close _ _ | closeClient _ | shutdown | closeAgain | connectError | connect _ _ =>
    exact h.other le_rfl (fun _ _ _ => id) (by simp [Unsent]) (by simp)
  | client => exact h.other (Nat.le_succ _) (fun _ _ _ => id) (by simp [Unsent]) (by simp)
  | _ => exact .acceptor ha rfl (by simp)

theorem Unsent.perm (h : cs.Perm cs') : Unsent cs ↔ Unsent cs' := by
  simp only [Unsent, h.mem_iff]

theorem KeepsRoom.perm (hperm : cs.Perm cs') (h : KeepsRoom ⟨s, cs⟩ c x) :
    KeepsRoom ⟨s, cs'⟩ c x := by
  unfold KeepsRoom at h ⊢
  simpa only [Unsent.perm hperm, hperm.mem_iff] using h

theorem Room.start (h : Room ⟨s, cs⟩) (hc : system.starts c = true) : Room ⟨s, c :: cs⟩ := by
  obtain ⟨hacceptor, hdestroyer, -⟩ := starts_kind hc
  refine fun hw hu ha => h hw (hu.imp (fun hu => ?_) fun hu => ?_) ?_
  · exact (List.mem_cons.mp hu).resolve_left fun he => nomatch he ▸ hdestroyer
  · exact (List.mem_cons.mp hu).resolve_left fun he => nomatch he ▸ hdestroyer
  · exact (List.mem_cons.mp ha).resolve_left fun he => nomatch he ▸ hacceptor

/-- While it keeps room for its notice, `uo_tcp_server_destroy` is never stuck. -/
theorem not_stuck (events : List (Event Thread Input)) (p : Pool Server Thread)
    (hevents : system.Along KeepsRoom start events) (hrun : system.run start events = some p) :
    ¬ Stuck p := by
  have h : Room p ∧ Alone p.procs := by
    refine System.run_invariant (I := fun p => Room p ∧ Alone p.procs)
      (fun hperm h => ⟨fun hw hu ha => h.1 hw ((Unsent.perm hperm).mpr hu) (hperm.mem_iff.mpr ha),
        h.2.perm hperm⟩)
      (fun hperm h => h.perm hperm) (fun h hc => ⟨h.1.start hc, h.2.start hc⟩)
      (fun h hc hstep => ⟨room_step h.1 h.2 hc hstep, alone_step h.2 hstep⟩)
      ⟨fun _ _ _ => by decide, alone_start⟩ hevents hrun
  exact not_stuck_of_room h.1

/-- The queue is full, and nobody takes a notice out. -/
structure Full (p : Pool Server Thread) : Prop where
  unsent : Unsent p.procs
  full : p.shared.closingConns.enqueueSem = 0
  accept : .accept ∈ p.procs
  waiting : p.shared.waiting = 0

/-- No connection comes from outside, and `accept` does not fail. -/
def Quiet (_ : Pool Server Thread) (c : Thread) (x : Input) : Prop :=
  c ≠ .client ∧ (c = .accept → x.sockfd ≠ -1)

theorem Full.other (h : Full ⟨s, c :: cs⟩) (hwaiting : s'.waiting = s.waiting)
    (hsem : s'.closingConns.enqueueSem = s.closingConns.enqueueSem)
    (hc : c.isAcceptor = false ∧ c.isDestroyer = false) : Full ⟨s', new ++ cs⟩ := by
  obtain ⟨hunsent, hfull, haccept, hw⟩ := h
  have hne {d : Thread} (hd : d.isAcceptor = true ∨ d.isDestroyer = true) (hmem : d ∈ c :: cs) :
      d ∈ new ++ cs := by
    refine List.mem_append_right _ ((List.mem_cons.mp hmem).resolve_left ?_)
    rintro rfl
    exact hd.elim (fun hd => nomatch hc.1.symm.trans hd) fun hd => nomatch hc.2.symm.trans hd
  exact ⟨hunsent.imp (hne (.inr rfl)) (hne (.inr rfl)), hsem.trans hfull, hne (.inl rfl) haccept,
    hwaiting.trans hw⟩

theorem full_step (h : Full ⟨s, c :: cs⟩) (ha : Alone (c :: cs)) (hc : Quiet ⟨s, c :: cs⟩ c x)
    (hstep : step s c x = some (s', new)) : Full ⟨s', new ++ cs⟩ := by
  have hproper := ha.proper c (.head _)
  have hacceptor (hc : c.isAcceptor = true) : c = .accept := by
    refine ((List.mem_cons.mp h.accept).resolve_right fun hmem => ?_).symm
    exact ha.not_mem_of_acceptor hc rfl hmem
  have hdestroyer (hc : c.isDestroyer = true) : c = .destroy ∨ c = .stop (.enqueue (-1) true) := by
    have hcs := ha.not_unsent hc
    have hu := h.unsent
    simp only [Unsent, List.mem_cons, not_or] at hu hcs
    tauto
  have hblocked : s.queueStep (.enqueue (-1) true) = none := by
    have hfull : s.closingConns.enqueueSem = 0 := h.full
    rw [Server.queueStep, BlockingQueue.step, if_pos hfull]
    rfl
  cases step_cases hstep with
  | acceptError _ herror => exact absurd herror (hc.2 rfl)
  | accept _ _ _ hw => exact absurd h.waiting hw.ne'
  | leave _ _ | again _ _ | «open» _ _ | opened _ | drain _ _ | drained _ _ _ | drop _ _ _
  | finished _ _ | finish _ | finishing _ _ | dropLast _ _ =>
    exact absurd (hacceptor rfl) (by simp)
  | destroy => exact ⟨.inr (.head _), h.full, by simpa using h.accept, h.waiting⟩
  | stop hq | stopped hq =>
    rcases hdestroyer rfl with he | he
    · cases he
    · cases he
      cases hblocked.symm.trans hq
  | cancel | wakeUp | join _ => exact absurd (hdestroyer rfl) (by simp)
  | notify _ hq | notified _ hq =>
    obtain ⟨q', calls, hcall, rfl, -⟩ := queueStep_cases hq
    refine h.other rfl ?_ ⟨rfl, rfl⟩
    rcases enqueueSem_eq hproper hcall with hsem | ⟨item, b, -, hpos, -⟩
    · exact hsem
    · exact absurd h.full hpos.ne'
  | close _ _ | closeClient _ | shutdown | closeAgain | connectError | connect _ _ =>
    exact h.other rfl rfl ⟨rfl, rfl⟩
  | client => exact absurd rfl hc.1

/-- Once the queue is full, `uo_tcp_server_destroy` waits until a connection comes from outside. -/
theorem full_forever {events events' : List (Event Thread Input)} {p p' : Pool Server Thread}
    (hrun : system.run start events = some p) (hfull : Full p)
    (hevents : system.Along Quiet p events') (hrun' : system.run p events' = some p') :
    Full p' := by
  have halone : Alone p.procs :=
    System.run_invariant (I := fun p => Alone p.procs) (A := fun _ _ _ => True)
      (fun hperm h => h.perm hperm) (fun _ h => h) (fun h hc => h.start hc)
      (fun h _ hstep => alone_step h hstep) alone_start (along_of_forall (fun _ _ _ => trivial) _)
      hrun
  refine (System.run_invariant (I := fun p => Full p ∧ Alone p.procs) (fun hperm h => ?_)
    (fun _ h => h) (fun h hc => ⟨?_, h.2.start hc⟩)
    (fun h hc hstep => ⟨full_step h.1 h.2 hc hstep, alone_step h.2 hstep⟩) ⟨hfull, halone⟩ hevents
    hrun').1
  · exact ⟨⟨(Unsent.perm hperm).mp h.1.unsent, h.1.full, hperm.mem_iff.mp h.1.accept, h.1.waiting⟩,
      h.2.perm hperm⟩
  · exact ⟨h.1.unsent.cons, h.1.full, .tail _ h.1.accept, h.1.waiting⟩

/-- A step where nothing comes from outside. -/
def inside : Input := ⟨0, 0⟩

/-- The `k`-th connection is accepted. -/
def accepted (k : ℕ) : List (Event Thread Input) :=
  [.start .client, .turn (k + 2) inside, .turn 0 ⟨k + 10, 0⟩, .turn 0 inside, .turn 0 inside,
    .turn 0 inside]

/-- A connection is closed, and its notice gets a slot, before the server is destroyed. -/
def closedOnce : List (Event Thread Input) :=
  accepted 0 ++ [.turn 1 inside, .turn 1 inside, .turn 2 inside]

theorem not_stuck_closedOnce : ∃ p, system.run start closedOnce = some p ∧ ¬ Stuck p := by
  have hevents : system.Along KeepsRoom start closedOnce :=
    along_start rfl <| along_turn rfl trivial rfl <| along_turn rfl trivial rfl <|
      along_turn rfl trivial rfl <| along_turn rfl trivial rfl <|
      along_turn rfl (fun _ _ _ => by decide) rfl <| along_turn rfl trivial rfl <|
      along_turn rfl (fun _ _ _ => by decide) rfl <| along_turn rfl trivial rfl trivial
  exact ⟨_, rfl, not_stuck closedOnce _ hevents rfl⟩

/-- Sixteen connections are closed before the server is destroyed. -/
def closedAll : List (Event Thread Input) :=
  (List.range 16).flatMap accepted ++
    (List.range 16).flatMap (fun k => [.turn (k + 1) inside, .turn (k + 1) inside]) ++
    [.turn 17 inside]

theorem stuck_closedAll : ¬ ∀ (events : List (Event Thread Input)) (p : Pool Server Thread),
    system.run start events = some p → ¬ Stuck p := by
  intro h
  obtain ⟨p, hp, hview⟩ : ∃ p, system.run start closedAll = some p ∧
      (decide (.stop (.enqueue (-1) true) ∈ p.procs), p.shared.closingConns.enqueueSem,
        decide (.accept ∈ p.procs), p.shared.waiting) = (true, 0, true, 0) :=
    Option.map_eq_some_iff.mp (by decide +kernel :
      (system.run start closedAll).map (fun p =>
        (decide (.stop (.enqueue (-1) true) ∈ p.procs), p.shared.closingConns.enqueueSem,
          decide (.accept ∈ p.procs), p.shared.waiting)) = some (true, 0, true, 0))
  simp only [Prod.mk.injEq, decide_eq_true_eq] at hview
  obtain ⟨hdestroy, hfull, haccept, hwaiting⟩ := hview
  exact h closedAll p hp ⟨hdestroy, hfull, haccept, hwaiting⟩

end Libuo.TcpServer
