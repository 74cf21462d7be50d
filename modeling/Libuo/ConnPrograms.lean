import Libuo.ByteStreamRefinement
import Libuo.ConnIndex
import Libuo.HttpKeepAlive

/-!
# Programs of event handlers

What the handlers of a connection do with it, and with what they keep of their own. A connection is
driven by its callback, one function after the other, and its socket takes or gives a part of the
bytes at a time. Seen from outside, it sends and receives, and the handlers are run as a whole.
-/

namespace Libuo.ConnPrograms
open TcpConn ConnCallbacks ConnSends ConnIndex ByteStreams
open ConnChains (Evt)
open HttpKeepAlive (afterSend)

variable {σ : Type}

abbrev Effect (σ : Type) := Conn × σ → Option (Conn × σ)

/-- `uo_tcp_conn_evt_handlers`, with the functions in the order in which they are run. -/
structure Program (σ : Type) where
  items : Evt → List Item
  funcs : Evt → List (Effect σ)

def Program.handlers (P : Program σ) : Handlers := ⟨P.items, fun evt => (P.funcs evt).length⟩

def runs (fs : List (Effect σ)) (x : Conn × σ) : Option (Conn × σ) := fs.foldlM (fun x f => f x) x

/-- A connection between its operations, and what `uo_tcp_conn_send` has yet to write while it
runs. -/
structure Endpoint (σ : Type) where
  conn : Conn
  own : σ
  unsent : Option (List UInt8)

namespace Program

variable (P : Program σ) (junk : ℕ → UInt8)

/-- The handlers before a send; or, when everything has been written, those after it, and
`uo_tcp_conn_after_send`. -/
def act (e : Endpoint σ) : Option (Endpoint σ) :=
  match e.unsent with
  | none => do
    guard (e.conn.state = .send)
    let (conn, own) ← runs (P.funcs .beforeSend) ({ e.conn with state := .none }, e.own)
    some ⟨conn, own, some conn.wbuf.content⟩
  | some [] => do
    let (conn, own) ← runs (P.funcs .afterSend) (e.conn, e.own)
    some ⟨afterSend conn, own, none⟩
  | some _ => none

/-- A write of `uo_tcp_conn_send`, of which the socket takes `n` bytes. -/
def write (e : Endpoint σ) (n : ℕ) : Option (List UInt8 × Endpoint σ) :=
  e.unsent.bind fun bytes => (cut bytes n).map fun c => (c.1, { e with unsent := some c.2 })

/-- A receive with the handlers around it. -/
def read (e : Endpoint σ) (chunk : List UInt8) : Option (Endpoint σ) := do
  guard (e.unsent = none)
  guard (e.conn.state = .recv)
  let (conn, own) ← runs (P.funcs .beforeRecv) ({ e.conn with state := .none }, e.own)
  let conn ← conn.recv junk chunk
  let (conn, own) ← runs (P.funcs .afterRecv) (conn, own)
  some ⟨conn, own, none⟩

def party : Party UInt8 (Endpoint σ) := ⟨P.act, write, P.read junk⟩

end Program

/-- A connection with its callback. While `uo_tcp_conn_send` runs, the results of its writes and the
bytes that are left. -/
structure Running (σ : Type) where
  machine : Machine
  own : σ
  sending : Option (List (Option ℕ) × List UInt8)

def Program.effect (P : Program σ) (evt : Evt) (rest : List Func) : Option (Effect σ) :=
  (P.funcs evt)[(P.funcs evt).length - (rest.count (.handler evt) + 1)]?

/-- What comes from outside for a function, when no other thread takes part and `epoll_ctl`
accepts the socket. -/
def plainInput : Func → Option Input
  | .advance => some (.stored none)
  | .beforeRecv => some (.register true)
  | .recv | .afterSend | .close | .afterClose => some .none
  | .handler _ | .executeIo | .send => none

namespace Running

variable (P : Program σ) (junk : ℕ → UInt8)

/-- `uo_cb_invoke`. Each function finds the connection at the bottom of the stack;
`uo_io_execute_io` waits for a read. -/
def act (e : Running σ) : Option (Running σ) :=
  match e.sending with
  | some (results, []) =>
    (step P.handlers junk e.machine (.write results)).map fun machine =>
      { e with machine, sending := none }
  | some _ => none
  | none =>
    match e.machine.cb.funcs with
    | [] => none
    | f :: rest => do
      guard (stackIndex0 e.machine.cb = some .conn)
      match f with
      | .handler evt =>
        let effect ← P.effect evt rest
        let (conn, own) ← effect (e.machine.conn, e.own)
        let machine ← step P.handlers junk e.machine (.handler conn 0)
        some { e with machine, own }
      | .send => some { e with sending := some ([], e.machine.conn.wbuf.content) }
      | f =>
        let input ← plainInput f
        let machine ← step P.handlers junk e.machine input
        some { e with machine }

/-- A write takes some of the bytes that are left. -/
def write (e : Running σ) (n : ℕ) : Option (List UInt8 × Running σ) :=
  e.sending.bind fun (results, bytes) => (cut bytes n).map fun c =>
    (c.1, { e with sending := some (results ++ [some c.1.length], c.2) })

/-- `uo_io_execute_io`, when the socket is ready. -/
def read (e : Running σ) (chunk : List UInt8) : Option (Running σ) :=
  if chunk ≠ [] ∧ e.sending = none ∧ e.machine.cb.funcs.head? = some .executeIo then
    (step P.handlers junk e.machine (.read (some chunk))).map fun machine => { e with machine }
  else none

def party : Party UInt8 (Running σ) := ⟨act P junk, write, read P junk⟩

end Running

end Libuo.ConnPrograms
