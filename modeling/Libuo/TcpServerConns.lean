import Libuo.TcpServerShutdown

/-!
# The table of the open connections

The accepting thread enters a connection into the table under its descriptor number, and
removes it when the close notice with this number arrives. The number is free before the notice
is queued: when it is handed out again in between, the notice removes the entry of another
connection. A connection with the descriptor 0 is never entered.
-/

namespace Libuo.TcpServer
open Interleaving Interleaving.System OrderedMap
open BlockingQueue (Queue Call OnItsWay InOrder)

/-- The call on the queue that a thread is in. -/
def Thread.call? : Thread → Option (Call ℤ)
  | .drain call | .finishing call | .stop call | .notify _ call => some call
  | _ => none

/-- The connection whose descriptor a thread has to close, and has not closed yet. -/
def Thread.holding? : Thread → Option Conn
  | .accepted c => c
  | .conn c => some c
  | _ => none

def calls (procs : List Thread) : List (Call ℤ) := procs.filterMap Thread.call?

/-- The connections of the server that are not closed. -/
def held (procs : List Thread) : List Conn :=
  (procs.filterMap Thread.holding?).filter Conn.ofServer

/-- `accept` does not hand out the number 0, one that an open connection of the server has, or one
that is in a close notice on its way. The slots of the queue are used in order. -/
def KeepsEntries (p : Pool Server Thread) (c : Thread) (x : Input) : Prop :=
  (c = .accept → x.sockfd ≠ -1 →
    x.sockfd ≠ 0 ∧ ¬ OnItsWay p.shared.closingConns (calls p.procs) x.sockfd ∧
      ∀ conn, .conn conn ∈ p.procs → conn.ofServer = true → conn.sockfd ≠ x.sockfd) ∧
  ∀ call, c.call? = some call → InOrder capacity ⟨p.shared.closingConns, calls p.procs⟩ call ()

/-- After a round of the accepting thread each open connection of the server has its entry, and
the thread does not end before all of them are closed. -/
structure Listed (p : Pool Server Thread) : Prop where
  entry : .accept ∈ p.procs ∨ .finish ∈ p.procs → ∀ conn, .conn conn ∈ p.procs →
    conn.ofServer = true → get ints p.shared.conns conn.sockfd = some conn.id
  finished : p.shared.finished = true → ∀ conn, .conn conn ∈ p.procs → conn.ofServer = false

variable {s s' : Server} {c : Thread} {cs cs' new : List Thread} {x : Input} {q q' : Queue ℤ}
  {call call' : Call ℤ} {next : Option (Call ℤ)} {pending pending' : List (Call ℤ)}
  {conns conns' : List Conn} {conn : Conn}

/-- The connections have different numbers, none of them 0, and no notice on its way has one of
them. -/
structure Fresh (q : Queue ℤ) (pending : List (Call ℤ)) (conns : List Conn) : Prop where
  queue : BlockingQueue.Inv capacity ⟨q, pending⟩
  distinct : (conns.map Conn.sockfd).Nodup
  pos : ∀ conn ∈ conns, 0 < conn.sockfd
  fresh : ∀ conn ∈ conns, ¬ OnItsWay q pending conn.sockfd

theorem Fresh.perm (hpending : pending.Perm pending') (hconns : conns.Perm conns')
    (h : Fresh q pending conns) : Fresh q pending' conns' := by
  refine ⟨h.queue.perm hpending, (hconns.map _).nodup_iff.mp h.distinct,
    fun conn hmem => h.pos conn (hconns.mem_iff.mpr hmem),
    fun conn hmem hway => h.fresh conn (hconns.mem_iff.mpr hmem) ?_⟩
  exact hway.mono fun _ => hpending.mem_iff.mpr

theorem Fresh.sublist (hconns : conns'.Sublist conns) (h : Fresh q pending conns) :
    Fresh q pending conns' :=
  ⟨h.queue, (hconns.map _).nodup h.distinct, fun conn hmem => h.pos conn (hconns.subset hmem),
    fun conn hmem => h.fresh conn (hconns.subset hmem)⟩

theorem Fresh.dequeue (b : Bool) (h : Fresh q pending conns) :
    Fresh q (.dequeue b :: pending) conns :=
  ⟨h.queue.start rfl, h.distinct, h.pos, fun conn hmem hway =>
    h.fresh conn hmem ((BlockingQueue.onItsWay_cons.mp hway).resolve_left id)⟩

/-- A notice of a number that no open connection has. -/
theorem Fresh.enqueue {item : ℤ} (b : Bool) (hitem : ∀ conn ∈ conns, conn.sockfd ≠ item)
    (h : Fresh q pending conns) : Fresh q (.enqueue item b :: pending) conns :=
  ⟨h.queue.start rfl, h.distinct, h.pos, fun conn hmem hway =>
    (BlockingQueue.onItsWay_cons.mp hway).elim (fun he => hitem conn hmem he.symm)
      (h.fresh conn hmem)⟩

theorem Fresh.cons (h : Fresh q pending conns) (hpos : 0 < conn.sockfd)
    (hway : ¬ OnItsWay q pending conn.sockfd)
    (hother : ∀ conn' ∈ conns, conn'.sockfd ≠ conn.sockfd) : Fresh q pending (conn :: conns) := by
  refine ⟨h.queue, List.nodup_cons.mpr ⟨fun hmem => ?_, h.distinct⟩,
    List.forall_mem_cons.mpr ⟨hpos, h.pos⟩, List.forall_mem_cons.mpr ⟨hway, h.fresh⟩⟩
  obtain ⟨conn', hmem, heq⟩ := List.mem_map.mp hmem
  exact hother conn' hmem heq

theorem queueStep_eq (h : s.queueStep call = some (s', next)) :
    BlockingQueue.step capacity s.closingConns call () = some (s'.closingConns, next.toList) ∧
      s' = { s with closingConns := s'.closingConns } := by
  obtain ⟨⟨q', new⟩, hq, hr⟩ := Option.map_eq_some_iff.mp h
  obtain ⟨rfl, rfl⟩ := Prod.mk.inj hr
  refine ⟨?_, rfl⟩
  cases BlockingQueue.step_cases hq <;> exact hq

theorem Fresh.step (h : Fresh s.closingConns (call :: pending) conns)
    (hc : InOrder capacity ⟨s.closingConns, call :: pending⟩ call ())
    (hq : s.queueStep call = some (s', next)) :
    Fresh s'.closingConns (next.toList ++ pending) conns := by
  obtain ⟨hstep, -⟩ := queueStep_eq hq
  exact ⟨h.queue.step hc hstep, h.distinct, h.pos, fun conn hmem hway =>
    h.fresh conn hmem (BlockingQueue.onItsWay_step h.queue hc hstep hway)⟩

theorem held_sublist (c : Thread) (cs : List Thread) : (held cs).Sublist (held (c :: cs)) :=
  ((List.sublist_cons_self c cs).filterMap _).filter _

theorem mem_held_of_conn (hmem : .conn conn ∈ cs) (hserver : conn.ofServer = true) :
    conn ∈ held cs :=
  List.mem_filter.mpr ⟨List.mem_filterMap.mpr ⟨_, hmem, rfl⟩, hserver⟩

/-- While the accepting thread waits, the connections that are not closed are in callbacks. -/
theorem conn_of_mem_held (ha : ∀ conn, .accepted conn ∉ cs) (hmem : conn ∈ held cs) :
    .conn conn ∈ cs ∧ conn.ofServer = true := by
  obtain ⟨hmem, hserver⟩ := List.mem_filter.mp hmem
  obtain ⟨c, hc, hconn⟩ := List.mem_filterMap.mp hmem
  cases c with
  | accepted conn' => exact absurd hc (ha conn')
  | conn conn' =>
    obtain rfl := Option.some.inj hconn
    exact ⟨hc, hserver⟩
  | _ => exact nomatch hconn

theorem fresh_queueStep (hcall : c.call? = some call)
    (h : Fresh s.closingConns (calls (c :: cs)) (held (c :: cs)))
    (hc : KeepsEntries ⟨s, c :: cs⟩ c x) (hq : s.queueStep call = some (s', next)) :
    Fresh s'.closingConns (next.toList ++ calls cs) (held cs) := by
  have heq : calls (c :: cs) = call :: calls cs := by rw [calls, List.filterMap_cons, hcall, calls]
  have horder := hc.2 call hcall
  change InOrder capacity ⟨s.closingConns, calls (c :: cs)⟩ call () at horder
  rw [heq] at h horder
  exact (h.sublist (held_sublist c cs)).step horder hq

theorem fresh_step (h : Fresh s.closingConns (calls (c :: cs)) (held (c :: cs)))
    (ha : Alone (c :: cs)) (hc : KeepsEntries ⟨s, c :: cs⟩ c x)
    (hstep : step s c x = some (s', new)) :
    Fresh s'.closingConns (calls (new ++ cs)) (held (new ++ cs)) := by
  cases step_cases hstep with
  | accept _ h0 _ _ =>
    obtain ⟨hne, hway, hother⟩ := hc.1 rfl fun he => by omega
    refine Fresh.cons h (lt_of_le_of_ne h0 hne.symm) hway fun conn hmem => ?_
    have hacc (conn' : Option Conn) : .accepted conn' ∉ cs := ha.not_mem_of_acceptor rfl rfl
    obtain ⟨hmem, hserver⟩ := conn_of_mem_held hacc hmem
    exact hother conn (.tail _ hmem) hserver
  | leave _ _ => exact h.sublist (held_sublist _ cs)
  | drain _ hq | drained _ hq _ | finishing _ hq | dropLast _ hq | stop hq | stopped hq
  | notify _ hq | notified _ hq => exact fresh_queueStep rfl h hc hq
  | drop _ hq _ => exact (fresh_queueStep rfl h hc hq).dequeue false
  | opened _ => exact h.dequeue false
  | finish _ => exact h.dequeue true
  | destroy => exact h.enqueue true fun conn hmem he => absurd (h.pos conn hmem) (by omega)
  | @close conn _ hserver =>
    refine (h.sublist (held_sublist _ cs)).enqueue true fun conn' hmem he => ?_
    have heq : held (.conn conn :: cs) = conn :: held cs := by
      rw [held, List.filterMap_cons]
      exact List.filter_cons_of_pos hserver
    have hdistinct := h.distinct
    rw [heq] at hdistinct
    exact (List.nodup_cons.mp hdistinct).1 (he ▸ List.mem_map_of_mem hmem)
  | closeClient _ => exact h.sublist (held_sublist _ cs)
  | _ => exact h

/-- An open connection of the server that is not about to be entered has its entry. -/
structure Entries (s : Server) (cs : List Thread) : Prop where
  entry : ∀ conn, .conn conn ∈ cs → conn.ofServer = true →
    .opened conn ∈ cs ∨ get ints s.conns conn.sockfd = some conn.id
  opened : ∀ conn conn', .opened conn ∈ cs → .conn conn' ∈ cs → conn'.ofServer = true →
    conn'.sockfd = conn.sockfd → conn' = conn
  server : ∀ conn, .accepted (some conn) ∈ cs → conn.ofServer = true
  last : .finishing (.dequeue false) ∉ cs
  finished : s.finished = true → cs.countP Thread.isAcceptor ≤ 0 ∧
    ∀ conn, .conn conn ∈ cs → conn.ofServer = false

theorem Entries.perm (hperm : cs.Perm cs') (h : Entries s cs) : Entries s cs' := by
  obtain ⟨hentry, hopened, hserver, hlast, hfinished⟩ := h
  simp only [hperm.mem_iff, hperm.countP_eq] at hentry hopened hserver hlast hfinished
  exact ⟨hentry, hopened, hserver, hlast, hfinished⟩

theorem Entries.not_finished (h : Entries s (c :: cs)) (hc : c.isAcceptor = true) :
    s.finished ≠ true := fun hf => by
  have hcount := (h.finished hf).1
  rw [List.countP_cons_of_pos hc] at hcount
  exact Nat.not_succ_le_zero _ hcount

/-- A step that has nothing to do with the connections that are open. -/
structure Plain (c : Thread) (new : List Thread) : Prop where
  notOpened : ∀ conn, c ≠ .opened conn
  opened : ∀ conn, .opened conn ∉ new
  conn : ∀ conn, .conn conn ∈ new → conn.ofServer = false
  server : ∀ conn, .accepted (some conn) ∈ new → conn.ofServer = true
  last : .finishing (.dequeue false) ∉ new
  acceptor : new.countP Thread.isAcceptor ≤ [c].countP Thread.isAcceptor

theorem Entries.plain (h : Entries s (c :: cs)) (hplain : Plain c new)
    (hget : ∀ conn ∈ held cs, get ints s'.conns conn.sockfd = get ints s.conns conn.sockfd)
    (hfinished : s'.finished = s.finished) : Entries s' (new ++ cs) := by
  have hopened {conn : Conn} : .opened conn ∈ new ++ cs ↔ .opened conn ∈ c :: cs := by
    simp [hplain.opened, (hplain.notOpened conn).symm]
  have hconn {conn : Conn} (hmem : .conn conn ∈ new ++ cs) (hserver : conn.ofServer = true) :
      .conn conn ∈ cs := by
    refine (List.mem_append.mp hmem).resolve_left fun hmem => ?_
    exact nomatch hserver.symm.trans (hplain.conn conn hmem)
  refine ⟨fun conn hmem hserver => ?_, fun conn conn' ho hmem hserver he => ?_,
    fun conn hmem => ?_, ?_, fun hf => ?_⟩
  · have hmem := hconn hmem hserver
    rw [hopened, hget conn (mem_held_of_conn hmem hserver)]
    exact h.entry conn (.tail _ hmem) hserver
  · exact h.opened conn conn' (hopened.mp ho) (.tail _ (hconn hmem hserver)) hserver he
  · exact (List.mem_append.mp hmem).elim (hplain.server conn) fun hmem =>
      h.server conn (.tail _ hmem)
  · exact List.not_mem_append hplain.last fun hmem => h.last (.tail _ hmem)
  · obtain ⟨hcount, hclient⟩ := h.finished (hfinished ▸ hf)
    refine ⟨countP_step hcount hplain.acceptor, fun conn hmem => ?_⟩
    exact (List.mem_append.mp hmem).elim (hplain.conn conn) fun hmem => hclient conn (.tail _ hmem)

/-- What `uo_queue_dequeue` returns has been on its way. -/
theorem onItsWay_returned {garbage : ℤ}
    (h : BlockingQueue.Inv capacity ⟨s.closingConns, call :: pending⟩)
    (hproper : isEnqueue call = false) (hne : call ≠ .dequeue false)
    (hq : s.queueStep call = some (s', none)) :
    OnItsWay s.closingConns (call :: pending) (returned garbage call) := by
  cases call with
  | dequeue b =>
    obtain rfl : b = true := by
      cases b
      · exact absurd rfl hne
      · rfl
    obtain ⟨hstep, -⟩ := queueStep_eq hq
    rw [BlockingQueue.step] at hstep
    split at hstep <;> simp at hstep
  | postEnqueue t item =>
    obtain ⟨a, rfl, -⟩ := h.numbers.sound t item (.inr (.head _))
    exact .inr ⟨_, .head _, rfl⟩
  | addTail | read t =>
    obtain ⟨hstep, -⟩ := queueStep_eq hq
    simp [BlockingQueue.step] at hstep
  | _ => cases hproper

theorem get_removeConn {sockfd k : ℤ} (h : sockfd ≠ k) :
    get ints (s.removeConn sockfd).conns k = get ints s.conns k := by
  change get ints (if sockfd = -1 ∨ sockfd = 0 then s.conns else remove ints s.conns sockfd) k = _
  split
  · rfl
  · rw [get_remove, if_neg (by simpa [ints] using h)]

theorem queueStep_frame (h : s.queueStep call = some (s', next)) :
    s'.conns = s.conns ∧ s'.finished = s.finished := by
  obtain ⟨q', new, -, rfl, -⟩ := queueStep_cases h
  exact ⟨rfl, rfl⟩

/-- The number in a notice is not that of an open connection. -/
theorem get_dropped {garbage : ℤ} (hfresh : Fresh s.closingConns (call :: calls cs) (held cs))
    (hproper : isEnqueue call = false) (hne : call ≠ .dequeue false)
    (hq : s.queueStep call = some (s', none)) (hmem : conn ∈ held cs) :
    get ints (s'.removeConn (returned garbage call)).conns conn.sockfd =
      get ints s.conns conn.sockfd := by
  rw [get_removeConn, (queueStep_frame hq).1]
  intro he
  exact hfresh.fresh conn hmem (he ▸ onItsWay_returned hfresh.queue hproper hne hq)

/-- The entry of a connection whose descriptor is not 0 is made, and the others are left alone. -/
theorem get_setConn {k : ℤ} (hk : 0 < k) :
    get ints (s.setConn conn).conns k =
      if conn.sockfd = k then some conn.id else get ints s.conns k := by
  change get ints (if conn.sockfd = 0 then s.conns else
    OrderedMap.set ints s.conns conn.sockfd conn.id) k = _
  by_cases h0 : conn.sockfd = 0
  · rw [if_pos h0, if_neg (h0 ▸ hk.ne)]
  · rw [if_neg h0, get_set]
    simp [ints]

theorem Entries.set (h : Entries s (.opened conn :: cs))
    (hpos : ∀ conn' ∈ held cs, 0 < conn'.sockfd) :
    Entries (s.setConn conn) ([.drain (.dequeue false)] ++ cs) := by
  have htail {d : Thread} (hne : d ≠ .drain (.dequeue false))
      (hmem : d ∈ [.drain (.dequeue false)] ++ cs) : d ∈ cs :=
    (List.mem_cons.mp hmem).resolve_left hne
  refine ⟨fun conn' hmem hserver => ?_, fun conn₁ conn₂ ho hmem hserver he => ?_,
    fun conn' hmem => ?_, ?_, fun hf => absurd hf (h.not_finished rfl)⟩
  · have hmem := htail (by simp) hmem
    rw [get_setConn (hpos conn' (mem_held_of_conn hmem hserver))]
    by_cases he : conn'.sockfd = conn.sockfd
    · obtain rfl := h.opened conn conn' (.head _) (.tail _ hmem) hserver he
      exact .inr (if_pos rfl)
    · rw [if_neg (Ne.symm he)]
      refine (h.entry conn' (.tail _ hmem) hserver).imp_left fun ho => .tail _ ?_
      refine (List.mem_cons.mp ho).resolve_left fun ho => he ?_
      rw [Thread.opened.inj ho]
  · have ho := htail (by simp) ho
    have hmem := htail (by simp) hmem
    exact h.opened conn₁ conn₂ (.tail _ ho) (.tail _ hmem) hserver he
  · exact h.server conn' (.tail _ (htail (by simp) hmem))
  · simpa using h.last

theorem Entries.open (h : Entries s (.accepted (some conn) :: cs))
    (hdistinct : ((held (.accepted (some conn) :: cs)).map Conn.sockfd).Nodup)
    (ha : Alone (.accepted (some conn) :: cs)) :
    Entries s ([.opened conn, .conn conn] ++ cs) := by
  have hconn {conn' : Conn} (hmem : .conn conn' ∈ [.opened conn, .conn conn] ++ cs) :
      conn' = conn ∨ .conn conn' ∈ cs := by
    simpa using hmem
  refine ⟨fun conn' hmem hserver => ?_, fun conn₁ conn₂ ho hmem hserver he => ?_,
    fun conn' hmem => h.server conn' (List.mem_cons_of_mem _ (by simpa using hmem)), ?_,
    fun hf => absurd hf (h.not_finished rfl)⟩
  · rcases hconn hmem with rfl | hmem
    · exact .inl (.head _)
    · refine (h.entry conn' (.tail _ hmem) hserver).imp_left fun ho => ?_
      exact List.mem_append_right _ ((List.mem_cons.mp ho).resolve_left (by simp))
  · obtain rfl : conn₁ = conn := by
      have hacc : .opened conn₁ ∉ cs := ha.not_mem_of_acceptor rfl rfl
      simpa [hacc] using ho
    refine (hconn hmem).resolve_right fun hmem => ?_
    have heq : held (.accepted (some conn₁) :: cs) = conn₁ :: held cs := by
      rw [held, List.filterMap_cons]
      exact List.filter_cons_of_pos (h.server conn₁ (.head _))
    rw [heq] at hdistinct
    exact (List.nodup_cons.mp hdistinct).1
      (he ▸ List.mem_map_of_mem (mem_held_of_conn hmem hserver))
  · simpa using h.last

/-- The accepting thread ends when the table is empty. -/
theorem Entries.finish (h : Entries s (.finish :: cs)) (ha : Alone (.finish :: cs))
    (hconns : s.conns = []) : Entries { s with finished := true } cs := by
  refine ⟨fun conn hmem hserver => ?_, fun conn conn' ho hmem => ?_, fun conn hmem => ?_,
    fun hmem => h.last (.tail _ hmem), fun _ => ⟨?_, fun conn hmem => ?_⟩⟩
  · exact (h.entry conn (.tail _ hmem) hserver).imp_left fun ho => by simpa using ho
  · exact h.opened conn conn' (.tail _ ho) (.tail _ hmem)
  · exact h.server conn (.tail _ hmem)
  · have hcount := ha.acceptors
    rw [List.countP_cons_of_pos rfl] at hcount
    exact Nat.le_of_succ_le_succ hcount
  · by_contra hserver
    rcases h.entry conn (.tail _ hmem) (by simpa using hserver) with ho | hget
    · have ho : .opened conn ∈ cs := by simpa using ho
      exact ha.not_mem_of_acceptor rfl rfl ho
    · rw [hconns] at hget
      exact nomatch hget

theorem entries_step (h : Entries s (c :: cs))
    (hfresh : Fresh s.closingConns (calls (c :: cs)) (held (c :: cs)))
    (ha : Alone (c :: cs)) (hstep : step s c x = some (s', new)) :
    Entries s' (new ++ cs) := by
  have hproper := ha.proper c (.head _)
  have hheld := hfresh.sublist (held_sublist c cs)
  cases step_cases hstep with
  | opened _ => exact h.set hheld.pos
  | «open» _ _ => exact h.open hfresh.distinct ha
  | finished _ hconns => exact h.finish ha hconns
  | drain _ hq | finishing _ hq | stop hq | notify _ hq =>
    obtain ⟨hconns, hfinished⟩ := queueStep_frame hq
    have hnext : Call.dequeue false ≠ _ := (next_ne_start hq rfl).symm
    refine h.plain ⟨?_, ?_, ?_, ?_, ?_, ?_⟩ (fun conn _ => by rw [hconns]) hfinished <;>
      simp [Thread.isAcceptor, hnext]
  | drained _ hq _ | stopped hq | notified _ hq =>
    obtain ⟨hconns, hfinished⟩ := queueStep_frame hq
    refine h.plain ⟨?_, ?_, ?_, ?_, ?_, ?_⟩ (fun conn _ => by rw [hconns]) hfinished <;>
      simp [Thread.isAcceptor]
  | @drop call s' _ hq h0 =>
    have hne : call ≠ .dequeue false := by
      rintro rfl
      exact h0 rfl
    refine h.plain ⟨?_, ?_, ?_, ?_, ?_, ?_⟩
      (fun conn hmem => get_dropped hheld (by simpa [Thread.isProper] using hproper) hne hq hmem)
      (queueStep_frame hq).2 <;> simp [Thread.isAcceptor]
  | @dropLast call s' _ hq =>
    have hne : call ≠ .dequeue false := by
      rintro rfl
      exact h.last (.head _)
    refine h.plain ⟨?_, ?_, ?_, ?_, ?_, ?_⟩
      (fun conn hmem => get_dropped hheld (by simpa [Thread.isProper] using hproper) hne hq hmem)
      (queueStep_frame hq).2 <;> simp [Thread.isAcceptor]
  | _ =>
    refine h.plain ⟨?_, ?_, ?_, ?_, ?_, ?_⟩ (fun _ _ => rfl) rfl <;> simp [Thread.isAcceptor]

theorem listed_of_entries {p : Pool Server Thread} (h : Entries p.shared p.procs)
    (ha : Alone p.procs) : Listed p := by
  refine ⟨fun hacc conn hmem hserver => (h.entry conn hmem hserver).resolve_left fun ho => ?_,
    fun hf => (h.finished hf).2⟩
  obtain ⟨s, cs⟩ := p
  have hperm := List.perm_cons_erase ho
  refine hacc.elim (fun hacc => ?_) fun hacc => ?_
  · exact (ha.perm hperm).not_mem_of_acceptor rfl rfl ((List.mem_erase_of_ne (by simp)).mpr hacc)
  · exact (ha.perm hperm).not_mem_of_acceptor rfl rfl ((List.mem_erase_of_ne (by simp)).mpr hacc)

theorem KeepsEntries.perm (hperm : cs.Perm cs') (h : KeepsEntries ⟨s, cs⟩ c x) :
    KeepsEntries ⟨s, cs'⟩ c x := by
  have hcalls : (calls cs).Perm (calls cs') := hperm.filterMap _
  refine ⟨fun hc hx => ?_, fun call hcall => (h.2 call hcall).perm hcalls⟩
  obtain ⟨hne, hway, hother⟩ := h.1 hc hx
  refine ⟨hne, fun hway' => hway (hway'.mono fun _ => hcalls.mem_iff.mpr), fun conn hmem => ?_⟩
  exact hother conn (hperm.mem_iff.mpr hmem)

/-- What the table has to do with the connections, in each state of a run. -/
structure Tracked (p : Pool Server Thread) : Prop where
  alone : Alone p.procs
  fresh : Fresh p.shared.closingConns (calls p.procs) (held p.procs)
  entries : Entries p.shared p.procs

theorem Tracked.perm (hperm : cs.Perm cs') (h : Tracked ⟨s, cs⟩) : Tracked ⟨s, cs'⟩ :=
  ⟨h.alone.perm hperm, h.fresh.perm (hperm.filterMap _) ((hperm.filterMap _).filter _),
    h.entries.perm hperm⟩

theorem Tracked.start (h : Tracked ⟨s, cs⟩) (hc : system.starts c = true) :
    Tracked ⟨s, c :: cs⟩ := by
  refine ⟨h.alone.start hc, ?_, ?_⟩
  · cases c with
    | client | connect => exact h.fresh
    | _ => exact nomatch hc
  · obtain ⟨hentry, hopened, hserver, hlast, hfinished⟩ := h.entries
    cases c with
    | client | connect =>
      refine ⟨?_, ?_, ?_, ?_, ?_⟩
      · simpa using hentry
      · simpa using hopened
      · simpa using hserver
      · simpa using hlast
      · simpa [Thread.isAcceptor] using hfinished
    | _ => exact nomatch hc

theorem tracked_start : Tracked start := by
  refine ⟨alone_start, ⟨BlockingQueue.inv_create capacity, List.nodup_nil, ?_, ?_⟩, ?_⟩
  · exact fun conn hmem => nomatch hmem
  · exact fun conn hmem => nomatch hmem
  · constructor <;> simp [start, create]

theorem get_zero_step (h : get ints s.conns 0 = none) (hstep : step s c x = some (s', new)) :
    get ints s'.conns 0 = none := by
  have hremove {s' : Server} {sockfd : ℤ} (hs : s'.conns = s.conns) :
      get ints (s'.removeConn sockfd).conns 0 = none := by
    by_cases h0 : sockfd = 0
    · change get ints (if sockfd = -1 ∨ sockfd = 0 then s'.conns else _) 0 = none
      rw [if_pos (.inr h0), hs, h]
    · rw [get_removeConn h0, hs, h]
  cases step_cases hstep with
  | @opened conn _ =>
    change get ints (if conn.sockfd = 0 then s.conns else _) 0 = none
    split
    · exact h
    · rename_i hne
      rw [get_set, if_neg (by simpa [ints] using hne), h]
  | drain _ hq | drained _ hq _ | finishing _ hq | stop hq | stopped hq | notify _ hq
  | notified _ hq => rw [(queueStep_frame hq).1, h]
  | drop _ hq _ | dropLast _ hq => exact hremove (queueStep_frame hq).1
  | _ => exact h

/-- An open connection with the descriptor 0 is missed after every round. -/
theorem not_listed_of_zero {events : List (Event Thread Input)} {p : Pool Server Thread}
    (hrun : system.run start events = some p) (hround : .accept ∈ p.procs ∨ .finish ∈ p.procs)
    (hmem : .conn conn ∈ p.procs) (hserver : conn.ofServer = true) (h0 : conn.sockfd = 0) :
    ¬ Listed p := by
  have hzero : get ints p.shared.conns 0 = none :=
    System.run_invariant (I := fun p : Pool Server Thread => get ints p.shared.conns 0 = none)
      (A := fun _ _ _ => True) (fun _ h => h) (fun _ h => h) (fun h _ => h)
      (fun h _ hstep => get_zero_step h hstep) rfl (along_of_forall (fun _ _ _ => trivial) _) hrun
  intro h
  have hentry := h.entry hround conn hmem hserver
  rw [h0, hzero] at hentry
  exact nomatch hentry

/-- A number is handed out again before the notice of its first connection is queued, and the
server is destroyed. -/
def reused : List (Event Thread Input) :=
  accepted 0 ++ [.turn 1 inside, .start .client, .turn 3 inside, .turn 0 ⟨10, 0⟩, .turn 0 inside,
    .turn 0 inside] ++ List.replicate 4 (.turn 2 inside) ++ List.replicate 5 (.turn 0 inside) ++
    List.replicate 5 (.turn 3 inside) ++ [.turn 3 inside, .turn 0 ⟨11, 0⟩, .turn 0 inside,
    .turn 0 inside]

end Libuo.TcpServer
