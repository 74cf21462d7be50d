import Libuo.Interleaving
import Libuo.TcpConn
import Mathlib.Data.List.Count

/-!
# The callback chains of a connection

A connection is driven by a chain of callback functions, and any thread may request the
next operation. The state code tells the chain what to do next, and the threads whether
there is a chain.
-/

namespace Libuo.ConnChains
open Interleaving TcpConn

/-- The operations that are requested by `uo_tcp_conn_next_recv`, `uo_tcp_conn_next_send` and
`uo_tcp_conn_next_close`. -/
inductive Op where
  | recv | send | close
  deriving DecidableEq

def Op.code : Op → State
  | .recv => .recv
  | .send => .send
  | .close => .close

/-- `uo_tcp_conn_evt_handlers`. -/
inductive Evt where
  | afterOpen | beforeRecv | afterRecv | beforeSend | afterSend | beforeClose | afterClose
  deriving DecidableEq

/-- The functions in the list of a callback: those of the event handlers, and
`uo_tcp_conn_advance`, `uo_tcp_conn_before_recv` and so on. -/
inductive Func where
  | handler | advance | beforeRecv | recv | send | afterSend | close | afterClose
  deriving DecidableEq

/-- Where a chain is: about to run a function, between the two steps of
`uo_tcp_conn_advance`, or in a call of `uo_tcp_conn_next_state`, with the function that has
called it. In the call, `seen` tells that the first exchange has found `'i'`. -/
inductive Point where
  | run (f : Func)
  | settle
  | nextState (op : Op) (seen : Bool) (caller : Func)
  deriving DecidableEq

/-- A call of `uo_tcp_conn_next_state` by a thread of its own, or a chain, with the rest of
its list of functions. -/
inductive Proc where
  | request (op : Op) (seen : Bool)
  | chain (at_ : Point) (funclist : List Func)
  deriving DecidableEq

/-- What comes from outside: a handler calls `uo_tcp_conn_next_state`, a socket has been read
or written, or nothing. A length of 0 is an error. -/
inductive Input where
  | none
  | call (op : Op)
  | io (len : ℕ)
  deriving DecidableEq

structure Conn where
  state : State
  destroyed : Bool
  deriving DecidableEq

/-- `uo_cb_invoke`. A chain without functions is over. -/
def invoke : List Func → List Proc
  | [] => []
  | f :: funclist => [.chain (.run f) funclist]

/-- The first exchange of `uo_tcp_conn_next_state`, with what is left of the call. -/
def firstExchange (conn : Conn) (op : Op) (found : List Proc) (done : List Proc) :
    Conn × List Proc :=
  match conn.state with
  | .none => ({ conn with state := op.code }, done)
  | .idle => (conn, found)
  | _ => (conn, done)

/-- The second exchange. A chain is started when it fails. -/
def secondExchange (conn : Conn) (op : Op) (done : List Proc) : Conn × List Proc :=
  match conn.state with
  | .idle => ({ conn with state := op.code }, done)
  | _ => (conn, .chain (.run .advance) [] :: done)

def append (handlers : Evt → ℕ) (funclist : List Func) (evt : Evt) (rest : List Func) :
    List Func :=
  funclist ++ (List.replicate (handlers evt) .handler ++ rest)

def resume (funclist : List Func) : Func → List Proc
  | .recv => invoke (funclist ++ [.advance])
  | .handler => [.chain (.run .handler) funclist]
  | _ => invoke funclist

/-- The functions of a chain. The bytes to be read or written are not modelled: a read has
some length, and a write goes on until there is nothing left. -/
def runFunc (handlers : Evt → ℕ) (conn : Conn) (funclist : List Func) :
    Func → Input → Option (Conn × List Proc)
  | .handler, .none => some (conn, invoke funclist)
  | .handler, .call op => some (conn, [.chain (.nextState op false .handler) funclist])
  | .advance, .none =>
    let conn' := { conn with state := .none }
    match conn.state with
    | .recv => some (conn', invoke (append handlers funclist .beforeRecv [.beforeRecv]))
    | .send => some (conn', invoke (append handlers funclist .beforeSend [.send]))
    | .close => some (conn', invoke (append handlers funclist .beforeClose [.close]))
    | .none => some (conn', [.chain .settle funclist])
    | .idle => some (conn', invoke funclist)
  | .beforeRecv, .none => some (conn, invoke (.recv :: funclist))
  | .recv, .io len =>
    if len = 0 then some (conn, [.chain (.nextState .close false .recv) funclist])
    else some (conn, invoke (append handlers funclist .afterRecv [.advance]))
  | .send, .io wlen =>
    if wlen = 0 then some (conn, [.chain (.nextState .close false .send) funclist])
    else some (conn, [.chain (.run .send) funclist])
  | .send, .none => some (conn, invoke (append handlers funclist .afterSend [.afterSend, .advance]))
  | .afterSend, .none => some (conn, invoke funclist)
  | .close, .none => some (conn, invoke (append handlers funclist .afterClose [.afterClose]))
  | .afterClose, .none => some ({ conn with destroyed := true }, invoke funclist)
  | _, _ => none

def runProc (handlers : Evt → ℕ) (conn : Conn) : Proc → Input → Option (Conn × List Proc)
  | .request op false, .none => some (firstExchange conn op [.request op true] [])
  | .request op true, .none => some (secondExchange conn op [])
  | .chain (.nextState op false caller) funclist, .none =>
    some (firstExchange conn op [.chain (.nextState op true caller) funclist]
      (resume funclist caller))
  | .chain (.nextState op true caller) funclist, .none =>
    some (secondExchange conn op (resume funclist caller))
  | .chain .settle funclist, .none =>
    if conn.state = .none then some ({ conn with state := .idle }, invoke funclist)
    else some (conn, invoke (funclist ++ [.advance]))
  | .chain (.run f) funclist, input => runFunc handlers conn funclist f input
  | _, _ => none

/-- Any thread may make a request at any time. A connection that has been destroyed takes no
more steps. -/
def system (handlers : Evt → ℕ) : System Conn Proc Input where
  starts
    | .request _ seen => !seen
    | _ => false
  step conn proc input := if conn.destroyed then none else runProc handlers conn proc input

/-- `uo_tcp_conn_open`, for a connection that has been created. -/
def opened (handlers : Evt → ℕ) : Pool Conn Proc :=
  ⟨⟨.none, false⟩, invoke (append handlers [] .afterOpen [.advance])⟩

def Proc.isChain : Proc → Bool
  | .chain _ _ => true
  | .request _ _ => false

def Proc.isCalling : Proc → Bool
  | .request _ _ | .chain (.nextState _ _ _) _ => true
  | _ => false

/-- A pending operation has exactly one chain to carry it out, when no call is in progress. -/
def Served (p : Pool Conn Proc) : Prop :=
  p.shared.destroyed = false → (∀ proc ∈ p.procs, proc.isCalling = false) →
    (∃ op : Op, p.shared.state = op.code) → p.procs.countP Proc.isChain = 1

/-- What a run has to respect: no request goes on to its second exchange while the connection
is idle, and no write to the socket fails. -/
def Allowed (p : Pool Conn Proc) : Proc → Input → Prop
  | .request _ true, _ | .chain (.nextState _ true _) _, _ => p.shared.state ≠ .idle
  | .chain (.run .send) _, .io wlen => wlen ≠ 0
  | _, _ => True

/-- The lists of functions that lead back to `uo_tcp_conn_advance`, or to the end. -/
inductive Proper : List Func → Prop
  | handler {funclist : List Func} (h : Proper funclist) : Proper (.handler :: funclist)
  | advance : Proper [.advance]
  | beforeRecv : Proper [.beforeRecv]
  | recv : Proper [.recv]
  | send : Proper [.send]
  | afterSend : Proper [.afterSend, .advance]
  | close : Proper [.close]
  | afterClose : Proper [.afterClose]

inductive Sound : Proc → Prop
  | request {op : Op} : Sound (.request op false)
  | run {f : Func} {funclist : List Func} (h : Proper (f :: funclist)) :
    Sound (.chain (.run f) funclist)
  | settle : Sound (.chain .settle [])
  | handlerCall {op : Op} {funclist : List Func} (h : Proper (.handler :: funclist)) :
    Sound (.chain (.nextState op false .handler) funclist)
  | recvCall {op : Op} : Sound (.chain (.nextState op false .recv) [])

/-- The connection has one chain, or it is idle and has none. -/
inductive Inv : Pool Conn Proc → Prop
  | destroyed {p : Pool Conn Proc} (h : p.shared.destroyed = true) : Inv p
  | alive {p : Pool Conn Proc} (hstate : p.shared.state ≠ .idle)
    (hone : p.procs.countP Proc.isChain = 1) (hsound : ∀ proc ∈ p.procs, Sound proc) : Inv p
  | idle {p : Pool Conn Proc} (hstate : p.shared.state = .idle)
    (hnone : ∀ proc ∈ p.procs, proc.isChain = false) : Inv p

theorem Proper.handlers {funclist : List Func} (h : Proper funclist) (n : ℕ) :
    Proper (List.replicate n .handler ++ funclist) := by
  induction n with
  | zero => exact h
  | succ n ih => exact .handler ih

/-- What a step of the only chain leaves: the chain, or nothing when the connection has become
idle or has been destroyed. -/
inductive Onward : Conn → List Proc → Prop
  | destroyed {conn : Conn} {procs : List Proc} (h : conn.destroyed = true) : Onward conn procs
  | alive {conn : Conn} {point : Point} {funclist : List Func} (hstate : conn.state ≠ .idle)
    (hsound : Sound (.chain point funclist)) : Onward conn [.chain point funclist]
  | idle {conn : Conn} (hstate : conn.state = .idle) : Onward conn []

theorem onward_invoke {conn : Conn} {funclist : List Func} (hstate : conn.state ≠ .idle)
    (h : Proper funclist) : Onward conn (invoke funclist) := by
  cases funclist with
  | nil => cases h
  | cons f funclist => exact .alive hstate (.run h)

theorem onward_append {conn : Conn} (handlers : Evt → ℕ) (hstate : conn.state ≠ .idle) (evt : Evt)
    {rest : List Func} (h : Proper rest) : Onward conn (invoke (append handlers [] evt rest)) :=
  onward_invoke hstate (h.handlers _)

variable {handlers : Evt → ℕ} {conn conn' : Conn} {new cs cs' : List Proc}

theorem onward_runFunc {f : Func} {funclist : List Func} {input : Input}
    (h : Proper (f :: funclist))
    (hstate : conn.state ≠ .idle) (hwrite : f = .send → ∀ wlen, input = .io wlen → wlen ≠ 0)
    (hs : runFunc handlers conn funclist f input = some (conn', new)) : Onward conn' new := by
  cases h with
  | handler h =>
    cases input with
    | none =>
      cases hs
      exact onward_invoke hstate h
    | call op =>
      cases hs
      exact .alive hstate (.handlerCall (.handler h))
    | io len => simp [runFunc] at hs
  | advance =>
    cases input with
    | none =>
      have hne : ({ conn with state := .none } : Conn).state ≠ .idle := by simp
      simp only [runFunc] at hs
      split at hs
      · cases hs
        exact onward_append handlers hne .beforeRecv .beforeRecv
      · cases hs
        exact onward_append handlers hne .beforeSend .send
      · cases hs
        exact onward_append handlers hne .beforeClose .close
      · cases hs
        exact .alive hne .settle
      · exact absurd ‹_› hstate
    | call | io => simp [runFunc] at hs
  | beforeRecv =>
    cases input with
    | none =>
      cases hs
      exact onward_invoke hstate .recv
    | call | io => simp [runFunc] at hs
  | recv =>
    cases input with
    | io len =>
      rw [runFunc] at hs
      split at hs
      · cases hs
        exact .alive hstate .recvCall
      · cases hs
        exact onward_append handlers hstate .afterRecv .advance
    | none | call => simp [runFunc] at hs
  | send =>
    cases input with
    | none =>
      cases hs
      exact onward_append handlers hstate .afterSend .afterSend
    | io wlen =>
      rw [runFunc, if_neg (hwrite rfl wlen rfl)] at hs
      cases hs
      exact .alive hstate (.run .send)
    | call => simp [runFunc] at hs
  | afterSend =>
    cases input with
    | none =>
      cases hs
      exact onward_invoke hstate .advance
    | call | io => simp [runFunc] at hs
  | close =>
    cases input with
    | none =>
      cases hs
      exact onward_append handlers hstate .afterClose .afterClose
    | call | io => simp [runFunc] at hs
  | afterClose =>
    cases input with
    | none =>
      cases hs
      exact .destroyed rfl
    | call | io => simp [runFunc] at hs

theorem firstExchange_of_ne {op : Op} {found done : List Proc} (h : conn.state ≠ .idle)
    (hs : firstExchange conn op found done = (conn', new)) :
    conn'.state ≠ .idle ∧ new = done := by
  unfold firstExchange at hs
  split at hs
  · cases hs
    exact ⟨by cases op <;> simp [Op.code], rfl⟩
  · exact absurd ‹_› h
  · cases hs
    exact ⟨h, rfl⟩

theorem onward_runProc {point : Point} {funclist : List Func} {input : Input}
    (h : Sound (.chain point funclist)) (hstate : conn.state ≠ .idle)
    (hallowed : Allowed ⟨conn, cs⟩ (.chain point funclist) input)
    (hs : runProc handlers conn (.chain point funclist) input = some (conn', new)) :
    Onward conn' new := by
  cases h with
  | run h =>
    refine onward_runFunc h hstate ?_ hs
    rintro rfl wlen rfl
    exact hallowed
  | settle =>
    cases input with
    | none =>
      rw [runProc] at hs
      split at hs
      · cases hs
        exact .idle rfl
      · cases hs
        exact onward_invoke hstate .advance
    | call | io => simp [runProc] at hs
  | handlerCall h =>
    cases input with
    | none =>
      rw [runProc, Option.some.injEq] at hs
      obtain ⟨hne, rfl⟩ := firstExchange_of_ne hstate hs
      exact .alive hne (.run h)
    | call | io => simp [runProc] at hs
  | recvCall =>
    cases input with
    | none =>
      rw [runProc, Option.some.injEq] at hs
      obtain ⟨hne, rfl⟩ := firstExchange_of_ne hstate hs
      exact onward_invoke hne .advance
    | call | io => simp [runProc] at hs

theorem Inv.perm (hperm : cs.Perm cs') (h : Inv ⟨conn, cs⟩) : Inv ⟨conn, cs'⟩ := by
  cases h with
  | destroyed h => exact .destroyed h
  | alive hstate hone hsound =>
    exact .alive hstate (hperm.countP_eq _ ▸ hone) fun proc hp => hsound proc (hperm.mem_iff.mpr hp)
  | idle hstate hnone => exact .idle hstate fun proc hp => hnone proc (hperm.mem_iff.mpr hp)

theorem Allowed.perm {proc : Proc} {input : Input} (_ : cs.Perm cs')
    (h : Allowed ⟨conn, cs⟩ proc input) : Allowed ⟨conn, cs'⟩ proc input := by
  unfold Allowed at h ⊢
  split at h <;> exact h

theorem Inv.step {proc : Proc} {input : Input} (h : Inv ⟨conn, proc :: cs⟩)
    (hallowed : Allowed ⟨conn, proc :: cs⟩ proc input)
    (hs : (system handlers).step conn proc input = some (conn', new)) : Inv ⟨conn', new ++ cs⟩ := by
  simp only [system, Option.ite_none_left_eq_some] at hs
  obtain ⟨hdestroyed, hs⟩ := hs
  cases h with
  | destroyed h => exact absurd h hdestroyed
  | alive hstate hone hsound =>
    have hsound' : ∀ proc ∈ cs, Sound proc := fun proc hp => hsound proc (.tail _ hp)
    cases proc with
    | request op seen =>
      cases hsound _ (.head _)
      cases input with
      | none =>
        rw [runProc, Option.some.injEq] at hs
        obtain ⟨hne, rfl⟩ := firstExchange_of_ne hstate hs
        exact .alive hne (by simpa [Proc.isChain] using hone) hsound'
      | call | io => simp [runProc] at hs
    | chain point funclist =>
      have hnone : cs.countP Proc.isChain = 0 :=
        Nat.succ.inj ((List.countP_cons_of_pos rfl).symm.trans hone)
      cases onward_runProc (hsound _ (.head _)) hstate hallowed hs with
      | destroyed h => exact .destroyed h
      | alive hstate' hnew =>
        refine .alive hstate' ((List.countP_cons_of_pos rfl).trans (congrArg _ hnone))
          fun proc hp => ?_
        rcases List.mem_cons.mp hp with rfl | hp
        · exact hnew
        · exact hsound' proc hp
      | idle hstate' =>
        exact .idle hstate' fun proc hp => by simpa using List.countP_eq_zero.mp hnone proc hp
  | idle hstate hnone =>
    cases proc with
    | chain => simpa [Proc.isChain] using hnone _ (.head _)
    | request op seen =>
      have hcs : ∀ proc ∈ cs, proc.isChain = false := fun proc hp => hnone proc (.tail _ hp)
      cases seen with
      | true => exact absurd hstate hallowed
      | false =>
        cases input with
        | none =>
          change conn.state = .idle at hstate
          rw [runProc, firstExchange, hstate, Option.some.injEq] at hs
          cases hs
          refine .idle hstate fun proc hp => ?_
          rcases List.mem_cons.mp hp with rfl | hp
          · rfl
          · exact hcs proc hp
        | call | io => simp [runProc] at hs

theorem Inv.start {proc : Proc} (h : Inv ⟨conn, cs⟩)
    (hproc : (system handlers).starts proc = true) : Inv ⟨conn, proc :: cs⟩ := by
  cases proc with
  | chain => simp [system] at hproc
  | request op seen =>
    obtain rfl : seen = false := by simpa [system] using hproc
    cases h with
    | destroyed h => exact .destroyed h
    | alive hstate hone hsound =>
      refine .alive hstate (by simpa [Proc.isChain] using hone) fun proc hp => ?_
      rcases List.mem_cons.mp hp with rfl | hp
      · exact .request
      · exact hsound proc hp
    | idle hstate hnone =>
      refine .idle hstate fun proc hp => ?_
      rcases List.mem_cons.mp hp with rfl | hp
      · rfl
      · exact hnone proc hp

theorem inv_opened (handlers : Evt → ℕ) : Inv (opened handlers) := by
  have honward : Onward ⟨.none, false⟩ (invoke (append handlers [] .afterOpen [.advance])) :=
    onward_append handlers (by simp) .afterOpen .advance
  generalize hprocs : invoke (append handlers [] .afterOpen [.advance]) = procs at honward
  rw [opened, hprocs]
  cases honward with
  | destroyed h => simp at h
  | alive hstate hsound => exact .alive hstate rfl (by simpa using hsound)
  | idle hstate => simp at hstate

theorem Inv.served {p : Pool Conn Proc} (h : Inv p) : Served p := by
  intro hdestroyed hcalling hpending
  obtain ⟨op, hop⟩ := hpending
  cases h with
  | destroyed h => simp [hdestroyed] at h
  | alive hstate hone hsound => exact hone
  | idle hstate hnone =>
    rw [hstate] at hop
    cases op <;> simp [Op.code] at hop

/-- In a run in which no request is taken on an idle connection and no write fails, every
pending operation has exactly one chain. -/
theorem served_of_allowed {es : List (Event Proc Input)} {p : Pool Conn Proc}
    (hes : (system handlers).Along Allowed (opened handlers) es)
    (hr : (system handlers).run (opened handlers) es = some p) : Served p :=
  (System.run_invariant Inv.perm Allowed.perm Inv.start Inv.step (inv_opened handlers) hes
    hr).served

/-- No functions in the handlers but one that is called after the connection has been opened. -/
def single : Evt → ℕ
  | .afterOpen => 1
  | _ => 0

/-- The handler requests a receive, and another thread a close. -/
def requested : List (Event Proc Input) :=
  [.turn 0 (.call .recv), .start (.request .close false), .turn 0 .none, .turn 1 .none,
    .turn 0 .none]

theorem served_of_allowed_requested :
    (system single).Along Allowed (opened single) requested ∧
      ∃ p, (system single).run (opened single) requested = some p ∧ p.shared.state = .recv ∧
        Served p := by
  have hes : (system single).Along Allowed (opened single) requested := by
    simp [requested, System.Along, System.next, system, runProc, runFunc, firstExchange, resume,
      opened, invoke, append, single, Allowed]
  exact ⟨hes, _, rfl, rfl, served_of_allowed hes rfl⟩

def lost : List (Event Proc Input) :=
  [.turn 0 .none, .turn 0 .none, .turn 0 .none, .start (.request .recv false), .turn 0 .none,
    .turn 0 .none]

theorem not_served_lost :
    ¬ ∀ es p, (system single).run (opened single) es = some p → Served p := by
  intro h
  obtain ⟨p, hp, hstate, hprocs, hdestroyed⟩ : ∃ p,
      (system single).run (opened single) lost = some p ∧ p.shared.state = Op.recv.code ∧
        p.procs = [] ∧ p.shared.destroyed = false := ⟨_, rfl, rfl, rfl, rfl⟩
  have hone := h lost p hp hdestroyed (by simp [hprocs]) ⟨.recv, hstate⟩
  simp [hprocs] at hone

end Libuo.ConnChains
