import Libuo.Buffers

/-!
# TCP connections

The part of a connection that event handlers work on: the two buffers, the
argument of the receive event and the state code. A request for the next
operation is taken here without interference from other threads.

The functions have the names of the source without `uo_tcp_conn_`.
-/

namespace Libuo.TcpConn

/-- The state codes `'\0'`, `'r'`, `'s'`, `'c'` and `'i'`. -/
inductive State where
  | none | recv | send | close | idle
  deriving DecidableEq, Repr

/-- `uo_tcp_conn_evt_arg.after_recv`. -/
structure AfterRecvArg where
  lastRecvLen : ℕ
  isMsgFullyReceived : Bool
  deriving DecidableEq, Repr

/-- `uo_tcp_conn`, as far as the handlers of this library read and write it. -/
structure Conn where
  rbuf : Buf
  wbuf : Buf
  evtArg : AfterRecvArg
  state : State
  deriving DecidableEq, Repr

def bufSize : ℕ := 0x200

variable (junk : ℕ → UInt8)

/-- `uo_tcp_conn_create_for_client` and `uo_tcp_conn_create_for_server`. -/
def create : Conn :=
  ⟨Buf.alloc junk bufSize, Buf.alloc junk bufSize, ⟨0, false⟩, .none⟩

namespace Conn

/-- `uo_tcp_conn_next_state` when no other thread interferes: the first exchange
succeeds on `'\0'`, the second on `'i'`. -/
def nextState (c : Conn) (s : State) : Conn :=
  match c.state with
  | .none | .idle => { c with state := s }
  | _ => c

def nextRecv (c : Conn) : Conn := c.nextState .recv

def nextSend (c : Conn) : Conn := c.nextState .send

def nextClose (c : Conn) : Conn := c.nextState .close

/-- The bytes of a chunk have been read behind the position, and `uo_tcp_conn_recv`
moves the position over them. The buffer is doubled until the chunk fits, so that
chunks of every size can arrive. -/
def recv (c : Conn) (chunk : List UInt8) : Option Conn := do
  let rbuf ← c.rbuf.memcpyAppend junk chunk
  some { c with rbuf := rbuf, evtArg.lastRecvLen := chunk.length }

variable (c : Conn) (s : State)

@[simp] theorem rbuf_nextState : (c.nextState s).rbuf = c.rbuf := by
  unfold nextState
  split <;> rfl

@[simp] theorem wbuf_nextState : (c.nextState s).wbuf = c.wbuf := by
  unfold nextState
  split <;> rfl

@[simp] theorem evtArg_nextState : (c.nextState s).evtArg = c.evtArg := by
  unfold nextState
  split <;> rfl

theorem state_nextState (h : c.state = .none) : (c.nextState s).state = s := by
  simp [nextState, h]

/-- Every connection keeps at least the buffer space it was created with. -/
structure Wf (c : Conn) : Prop where
  rbuf_valid : c.rbuf.Valid
  wbuf_valid : c.wbuf.Valid
  rbuf_size : bufSize ≤ c.rbuf.getSize
  wbuf_size : bufSize ≤ c.wbuf.getSize

theorem create_wf (junk : ℕ → UInt8) : (create junk).Wf := by
  have hsize : bufSize ≤ (Buf.alloc junk bufSize).getSize := by simp [Buf.alloc, Buf.getSize]
  have hvalid := Buf.alloc_valid junk (show 0 < bufSize by decide)
  exact ⟨hvalid, hvalid, hsize, hsize⟩

theorem Wf.nextState {c : Conn} (h : c.Wf) (s : State) : (c.nextState s).Wf := by
  constructor
  · simpa using h.rbuf_valid
  · simpa using h.wbuf_valid
  · simpa using h.rbuf_size
  · simpa using h.wbuf_size

/-- Receiving keeps the connection well-formed and extends the content by the chunk. -/
theorem Wf.recv (junk : ℕ → UInt8) {c : Conn} (h : c.Wf) (chunk : List UInt8) :
    ∃ c', c.recv junk chunk = some c' ∧ c'.Wf ∧
      c'.rbuf.content = c.rbuf.content ++ chunk ∧ c'.wbuf = c.wbuf ∧ c'.state = c.state ∧
      c'.evtArg.isMsgFullyReceived = c.evtArg.isMsgFullyReceived := by
  obtain ⟨b, hb, hv, hc, -, hsize⟩ := Buf.memcpyAppend_spec junk h.rbuf_valid chunk
  exact ⟨{ c with rbuf := b, evtArg.lastRecvLen := chunk.length }, by simp [Conn.recv, hb],
    ⟨hv, h.wbuf_valid, Nat.le_trans h.rbuf_size hsize, h.wbuf_size⟩, hc, rfl, rfl, rfl⟩

end Conn

end Libuo.TcpConn
