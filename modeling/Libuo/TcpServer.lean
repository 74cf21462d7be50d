import Libuo.BlockingQueue
import Libuo.OrderedMap
import Mathlib.Data.Int.Notation

/-!
# TCP servers

The thread that accepts connections, the one that destroys the server, and the callbacks of
the connections, over one server. A connection is known to the server by its descriptor
number, which the operating system may hand out again once it is free. Close notices go through
a queue, whose steps are those of `BlockingQueue`. What a connection does before it is closed
is not part of the model.
-/

namespace Libuo.TcpServer
open Interleaving OrderedMap
open BlockingQueue (Queue Call)

/-- `uo_tcp_conn`: its number, and whether it is one of the server or has been connected by a
client of the same process. -/
structure Conn where
  id : ℕ
  sockfd : ℤ
  ofServer : Bool
  deriving DecidableEq

inductive SysCall where
  | shutdown | close
  deriving DecidableEq

structure Logged where
  call : SysCall
  conn : ℕ
  hit : Option ℕ
  deriving DecidableEq

/-- `uo_tcp_server`, with the operating system: the connections that wait for `accept`, whose
descriptor a number is, and a record of the calls on descriptors. -/
structure Server where
  isClosing : Bool
  closingConns : Queue ℤ
  conns : List (ℤ × ℕ)
  finished : Bool
  freed : Bool
  waiting : ℕ
  owner : ℤ → Option ℕ
  count : ℕ
  log : List Logged
  destroyed : List ℕ

def capacity : ℕ := 0x10

def create : Server where
  isClosing := false
  closingConns := (BlockingQueue.create capacity).shared
  conns := []
  finished := false
  freed := false
  waiting := 0
  owner := fun _ => none
  count := 0
  log := []
  destroyed := []

/-- Where a thread or a callback is: in `uo_tcp_server_accept`, in `uo_tcp_server_destroy`, in the
callback of a connection, or in the connecting of a client. -/
inductive Thread where
  | accept
  | accepted (conn : Option Conn)
  | opened (conn : Conn)
  | drain (call : Call ℤ)
  | finish
  | finishing (call : Call ℤ)
  | destroy
  | stop (call : Call ℤ)
  | wakeUp
  | join
  | conn (conn : Conn)
  | notify (conn : Conn) (call : Call ℤ)
  | closed (conn : Conn)
  | shut (conn : Conn)
  | client
  | connect
  deriving DecidableEq

/-- What comes from outside in a step: the descriptor that the operating system hands out, `-1` if
there is an error, and what a slot of the queue has when nothing has been written to it. -/
structure Input where
  sockfd : ℤ
  garbage : ℤ

def ints : KeyEq ℤ where
  equals := (· == ·)
  refl _ := beq_self_eq_true _
  symm h := by simpa using (beq_iff_eq.mp h).symm
  trans h h' := by simpa using (beq_iff_eq.mp h).trans (beq_iff_eq.mp h')

/-- One step of a call on the queue, and what is left of the call. -/
def Server.queueStep (s : Server) (call : Call ℤ) : Option (Server × Option (Call ℤ)) :=
  (BlockingQueue.step capacity s.closingConns call ()).map fun r =>
    ({ s with closingConns := r.1 }, r.2.head?)

/-- What `uo_queue_dequeue` returns when its last step is taken. -/
def returned (garbage : ℤ) : Call ℤ → ℤ
  | .postEnqueue _ item => item.getD garbage
  | _ => 0

/-- A descriptor is handed out, and a connection made of it. -/
def Server.open (s : Server) (sockfd : ℤ) : Server :=
  { s with owner := Function.update s.owner sockfd (some s.count), count := s.count + 1 }

def Server.sysCall (s : Server) (call : SysCall) (conn : Conn) : Server :=
  { s with
    owner := if call = .close then Function.update s.owner conn.sockfd none else s.owner
    log := ⟨call, conn.id, s.owner conn.sockfd⟩ :: s.log }

/-- `uo_inthashtbl_set`, which returns at once for the descriptor 0, as for a key that is `NULL`. -/
def Server.setConn (s : Server) (conn : Conn) : Server :=
  { s with
    conns := if conn.sockfd = 0 then s.conns else set ints s.conns conn.sockfd conn.id }

/-- `uo_inthashtbl_remove`, unless the notice is that of `uo_tcp_server_destroy`. It returns at once
for the descriptor 0, too. -/
def Server.removeConn (s : Server) (sockfd : ℤ) : Server :=
  { s with
    conns := if sockfd = -1 ∨ sockfd = 0 then s.conns else remove ints s.conns sockfd }

/-- One step of a thread. When `uo_tcp_server_destroy` has freed the server, nothing that uses it
is defined any more. -/
def step (s : Server) : Thread → Input → Option (Server × List Thread)
  | .accept, x =>
    if s.freed then none
    else if x.sockfd = -1 then some (s, [.accepted none])
    else if 0 ≤ x.sockfd ∧ s.owner x.sockfd = none ∧ 0 < s.waiting then
      some ({ s.open x.sockfd with waiting := s.waiting - 1 },
        [.accepted (some ⟨s.count, x.sockfd, true⟩)])
    else none
  | .accepted conn, _ =>
    -- `accept` has returned this connection, or `-1`
    if s.freed then none
    else if s.isClosing then some (s, [.finish])
    else match conn with
      | none => some (s, [.accept])
      | some conn => some (s, [.opened conn, .conn conn])
  | .opened conn, _ =>
    if s.freed then none
    else some (s.setConn conn, [.drain (.dequeue false)])
  | .drain call, x =>
    -- close notices are taken without waiting, until there is none
    if s.freed then none
    else (s.queueStep call).map fun r =>
      match r.2 with
      | some call => (r.1, [.drain call])
      | none =>
        let sockfd := returned x.garbage call
        if sockfd = 0 then (r.1, [.accept]) else (r.1.removeConn sockfd, [.drain (.dequeue false)])
  | .finish, _ =>
    -- `while (tcp_server->conns.count)`
    if s.freed then none
    else if s.conns.length = 0 then some ({ s with finished := true }, [])
    else some (s, [.finishing (.dequeue true)])
  | .finishing call, x =>
    if s.freed then none
    else (s.queueStep call).map fun r =>
      match r.2 with
      | some call => (r.1, [.finishing call])
      | none => (r.1.removeConn (returned x.garbage call), [.finish])
  | .destroy, _ => some ({ s with isClosing := true }, [.stop (.enqueue (-1) true)])
  | .stop call, _ =>
    (s.queueStep call).map fun r =>
      match r.2 with
      | some call => (r.1, [.stop call])
      | none => (r.1, [.wakeUp])
  | .wakeUp, x =>
    -- when the server cannot be connected to, its thread is cancelled, and the server is freed
    if x.sockfd = -1 then some ({ s with freed := true }, [])
    else some ({ s with waiting := s.waiting + 1 }, [.join])
  | .join, _ => if s.finished then some ({ s with freed := true }, []) else none
  | .conn conn, _ =>
    -- `uo_tcp_conn_close`, with the `after_close` handler that the server adds to its connections
    if conn.ofServer then
      if s.freed then none
      else some (s.sysCall .close conn, [.notify conn (.enqueue conn.sockfd true)])
    else some (s.sysCall .close conn, [.closed conn])
  | .notify conn call, _ =>
    if s.freed then none
    else (s.queueStep call).map fun r =>
      match r.2 with
      | some call => (r.1, [.notify conn call])
      | none => (r.1, [.closed conn])
  -- `uo_tcp_conn_destroy` calls `shutdown` and `close` once more
  | .closed conn, _ => some (s.sysCall .shutdown conn, [.shut conn])
  | .shut conn, _ =>
    some ({ s.sysCall .close conn with destroyed := conn.id :: s.destroyed }, [])
  | .client, _ => some ({ s with waiting := s.waiting + 1 }, [])
  | .connect, x =>
    if x.sockfd = -1 then some (s, [])
    else if 0 ≤ x.sockfd ∧ s.owner x.sockfd = none then
      some (s.open x.sockfd, [.conn ⟨s.count, x.sockfd, false⟩])
    else none

def system : System Server Thread Input where
  starts
    | .client | .connect => true
    | _ => false
  step := step

/-- A server that has been started. -/
def start : Pool Server Thread := ⟨create, [.accept, .destroy]⟩

inductive Step (s : Server) (x : Input) : Thread → Server → List Thread → Prop
  | acceptError (hf : s.freed = false) (h : x.sockfd = -1) : Step s x .accept s [.accepted none]
  | accept (hf : s.freed = false) (h0 : 0 ≤ x.sockfd) (hfree : s.owner x.sockfd = none)
      (hw : 0 < s.waiting) : Step s x .accept { s.open x.sockfd with waiting := s.waiting - 1 }
        [.accepted (some ⟨s.count, x.sockfd, true⟩)]
  | leave {conn : Option Conn} (hf : s.freed = false) (h : s.isClosing = true) :
    Step s x (.accepted conn) s [.finish]
  | again (hf : s.freed = false) (h : s.isClosing = false) : Step s x (.accepted none) s [.accept]
  | open {conn : Conn} (hf : s.freed = false) (h : s.isClosing = false) :
    Step s x (.accepted (some conn)) s [.opened conn, .conn conn]
  | opened {conn : Conn} (hf : s.freed = false) :
    Step s x (.opened conn) (s.setConn conn) [.drain (.dequeue false)]
  | drain {call call' : Call ℤ} {s' : Server} (hf : s.freed = false)
      (h : s.queueStep call = some (s', some call')) : Step s x (.drain call) s' [.drain call']
  | drained {call : Call ℤ} {s' : Server} (hf : s.freed = false)
      (h : s.queueStep call = some (s', none)) (h0 : returned x.garbage call = 0) :
    Step s x (.drain call) s' [.accept]
  | drop {call : Call ℤ} {s' : Server} (hf : s.freed = false)
      (h : s.queueStep call = some (s', none)) (h0 : returned x.garbage call ≠ 0) :
    Step s x (.drain call) (s'.removeConn (returned x.garbage call)) [.drain (.dequeue false)]
  | finished (hf : s.freed = false) (h : s.conns = []) :
    Step s x .finish { s with finished := true } []
  | finish (hf : s.freed = false) : Step s x .finish s [.finishing (.dequeue true)]
  | finishing {call call' : Call ℤ} {s' : Server} (hf : s.freed = false)
      (h : s.queueStep call = some (s', some call')) :
    Step s x (.finishing call) s' [.finishing call']
  | dropLast {call : Call ℤ} {s' : Server} (hf : s.freed = false)
      (h : s.queueStep call = some (s', none)) :
    Step s x (.finishing call) (s'.removeConn (returned x.garbage call)) [.finish]
  | destroy : Step s x .destroy { s with isClosing := true } [.stop (.enqueue (-1) true)]
  | stop {call call' : Call ℤ} {s' : Server} (h : s.queueStep call = some (s', some call')) :
    Step s x (.stop call) s' [.stop call']
  | stopped {call : Call ℤ} {s' : Server} (h : s.queueStep call = some (s', none)) :
    Step s x (.stop call) s' [.wakeUp]
  | cancel : Step s x .wakeUp { s with freed := true } []
  | wakeUp : Step s x .wakeUp { s with waiting := s.waiting + 1 } [.join]
  | join (h : s.finished = true) : Step s x .join { s with freed := true } []
  | close {conn : Conn} (hf : s.freed = false) (h : conn.ofServer = true) :
    Step s x (.conn conn) (s.sysCall .close conn) [.notify conn (.enqueue conn.sockfd true)]
  | closeClient {conn : Conn} (h : conn.ofServer = false) :
    Step s x (.conn conn) (s.sysCall .close conn) [.closed conn]
  | notify {conn : Conn} {call call' : Call ℤ} {s' : Server} (hf : s.freed = false)
      (h : s.queueStep call = some (s', some call')) :
    Step s x (.notify conn call) s' [.notify conn call']
  | notified {conn : Conn} {call : Call ℤ} {s' : Server} (hf : s.freed = false)
      (h : s.queueStep call = some (s', none)) : Step s x (.notify conn call) s' [.closed conn]
  | shutdown {conn : Conn} :
    Step s x (.closed conn) (s.sysCall .shutdown conn) [.shut conn]
  | closeAgain {conn : Conn} : Step s x (.shut conn)
      { s.sysCall .close conn with destroyed := conn.id :: s.destroyed } []
  | client : Step s x .client { s with waiting := s.waiting + 1 } []
  | connectError : Step s x .connect s []
  | connect (h0 : 0 ≤ x.sockfd) (hfree : s.owner x.sockfd = none) :
    Step s x .connect (s.open x.sockfd) [.conn ⟨s.count, x.sockfd, false⟩]

variable {s s' : Server} {c : Thread} {x : Input} {new : List Thread}

theorem of_not_freed {o : Option (Server × List Thread)}
    (h : (if s.freed then none else o) = some (s', new)) :
    s.freed = false ∧ o = some (s', new) := by
  obtain ⟨hf, h⟩ := Option.ite_none_left_eq_some.mp h
  exact ⟨by simpa using hf, h⟩

theorem of_queueStep {call : Call ℤ} {f : Server × Option (Call ℤ) → Server × List Thread}
    (h : (s.queueStep call).map f = some (s', new)) :
    (∃ s₁ call', s.queueStep call = some (s₁, some call') ∧ f (s₁, some call') = (s', new)) ∨
      ∃ s₁, s.queueStep call = some (s₁, none) ∧ f (s₁, none) = (s', new) := by
  obtain ⟨⟨s₁, next⟩, hq, hr⟩ := Option.map_eq_some_iff.mp h
  cases next with
  | some call' => exact .inl ⟨s₁, call', hq, hr⟩
  | none => exact .inr ⟨s₁, hq, hr⟩

theorem step_cases (h : step s c x = some (s', new)) : Step s x c s' new := by
  cases c with
  | accept =>
    obtain ⟨hf, h⟩ := of_not_freed h
    split at h
    · obtain ⟨rfl, rfl⟩ := Prod.mk.inj (Option.some.inj h)
      exact .acceptError hf ‹_›
    · obtain ⟨⟨h0, hfree, hw⟩, h⟩ := Option.ite_none_right_eq_some.mp h
      obtain ⟨rfl, rfl⟩ := Prod.mk.inj (Option.some.inj h)
      exact .accept hf h0 hfree hw
  | accepted conn =>
    obtain ⟨hf, h⟩ := of_not_freed h
    split at h
    · obtain ⟨rfl, rfl⟩ := Prod.mk.inj (Option.some.inj h)
      exact .leave hf ‹_›
    · rename_i hclosing
      have hclosing : s.isClosing = false := by simpa using hclosing
      cases conn with
      | none =>
        obtain ⟨rfl, rfl⟩ := Prod.mk.inj (Option.some.inj h)
        exact .again hf hclosing
      | some conn =>
        obtain ⟨rfl, rfl⟩ := Prod.mk.inj (Option.some.inj h)
        exact .open hf hclosing
  | opened conn =>
    obtain ⟨hf, h⟩ := of_not_freed h
    obtain ⟨rfl, rfl⟩ := Prod.mk.inj (Option.some.inj h)
    exact .opened hf
  | drain call =>
    obtain ⟨hf, h⟩ := of_not_freed h
    rcases of_queueStep h with ⟨s₁, call', hq, hr⟩ | ⟨s₁, hq, hr⟩
    · obtain ⟨rfl, rfl⟩ := Prod.mk.inj hr
      exact .drain hf hq
    · simp only at hr
      split at hr
      · obtain ⟨rfl, rfl⟩ := Prod.mk.inj hr
        exact .drained hf hq ‹_›
      · obtain ⟨rfl, rfl⟩ := Prod.mk.inj hr
        exact .drop hf hq ‹_›
  | finish =>
    obtain ⟨hf, h⟩ := of_not_freed h
    split at h
    · rename_i hlen
      obtain ⟨rfl, rfl⟩ := Prod.mk.inj (Option.some.inj h)
      exact .finished hf (List.length_eq_zero_iff.mp hlen)
    · obtain ⟨rfl, rfl⟩ := Prod.mk.inj (Option.some.inj h)
      exact .finish hf
  | finishing call =>
    obtain ⟨hf, h⟩ := of_not_freed h
    rcases of_queueStep h with ⟨s₁, call', hq, hr⟩ | ⟨s₁, hq, hr⟩
    · obtain ⟨rfl, rfl⟩ := Prod.mk.inj hr
      exact .finishing hf hq
    · obtain ⟨rfl, rfl⟩ := Prod.mk.inj hr
      exact .dropLast hf hq
  | destroy =>
    obtain ⟨rfl, rfl⟩ := Prod.mk.inj (Option.some.inj h)
    exact .destroy
  | stop call =>
    rcases of_queueStep h with ⟨s₁, call', hq, hr⟩ | ⟨s₁, hq, hr⟩
    · obtain ⟨rfl, rfl⟩ := Prod.mk.inj hr
      exact .stop hq
    · obtain ⟨rfl, rfl⟩ := Prod.mk.inj hr
      exact .stopped hq
  | wakeUp =>
    rw [step] at h
    split at h
    · obtain ⟨rfl, rfl⟩ := Prod.mk.inj (Option.some.inj h)
      exact .cancel
    · obtain ⟨rfl, rfl⟩ := Prod.mk.inj (Option.some.inj h)
      exact .wakeUp
  | join =>
    obtain ⟨hfinished, h⟩ := Option.ite_none_right_eq_some.mp h
    obtain ⟨rfl, rfl⟩ := Prod.mk.inj (Option.some.inj h)
    exact .join hfinished
  | conn conn =>
    rw [step] at h
    split at h
    · obtain ⟨hf, h⟩ := of_not_freed h
      obtain ⟨rfl, rfl⟩ := Prod.mk.inj (Option.some.inj h)
      exact .close hf ‹_›
    · rename_i hserver
      obtain ⟨rfl, rfl⟩ := Prod.mk.inj (Option.some.inj h)
      exact .closeClient (by simpa using hserver)
  | notify conn call =>
    obtain ⟨hf, h⟩ := of_not_freed h
    rcases of_queueStep h with ⟨s₁, call', hq, hr⟩ | ⟨s₁, hq, hr⟩
    · obtain ⟨rfl, rfl⟩ := Prod.mk.inj hr
      exact .notify hf hq
    · obtain ⟨rfl, rfl⟩ := Prod.mk.inj hr
      exact .notified hf hq
  | closed conn =>
    obtain ⟨rfl, rfl⟩ := Prod.mk.inj (Option.some.inj h)
    exact .shutdown
  | shut conn =>
    obtain ⟨rfl, rfl⟩ := Prod.mk.inj (Option.some.inj h)
    exact .closeAgain
  | client =>
    obtain ⟨rfl, rfl⟩ := Prod.mk.inj (Option.some.inj h)
    exact .client
  | connect =>
    rw [step] at h
    split at h
    · obtain ⟨rfl, rfl⟩ := Prod.mk.inj (Option.some.inj h)
      exact .connectError
    · obtain ⟨⟨h0, hfree⟩, h⟩ := Option.ite_none_right_eq_some.mp h
      obtain ⟨rfl, rfl⟩ := Prod.mk.inj (Option.some.inj h)
      exact .connect h0 hfree

end Libuo.TcpServer
