import Libuo.ByteStreams
import Libuo.HttpDelivery
import Libuo.HttpKeepAlive

/-!
# Connections of clients and servers

A connection receives a message with its TCP connection: the bytes come behind those in the receive
buffer, where the message is parsed, and what the flow asks for is the next operation unless another
receive is. A message that is sent has a start line in any case, and is written piece by piece.
-/

namespace Libuo.HttpConns
open CStrings CText HttpMsg HttpServer HttpParseSafety
open HttpReceive (Reached Receiving Sendable)
open HttpKeepAlive (HttpConn)
open TcpConn (Conn State)

variable (junk : ℕ → UInt8)

/-- A pending receive: `uo_tcp_conn_recv`, then the handlers of `after_recv`, the last of which is
that of the flow. It asks for the operation that follows a message. -/
def receive (finish : Msg → Msg) (next : State) (tcp : Conn) (msg : Msg) (chunk : List UInt8) :
    Option (Conn × Msg × List Event) := do
  guard (tcp.state = .recv)
  let tcp ← { tcp with state := .none }.recv junk chunk
  let r ← (HttpReceive.afterRecv finish { msg with buf := tcp.rbuf.content }).toOption
  let rbuf ← tcp.rbuf.store 0 r.1.buf
  let tcp := { tcp with rbuf }
  let tcp := if .nextRecv ∈ r.2 then tcp.nextRecv else tcp
  some (tcp.nextState next, r.1, r.2)

/-- `tcp_client_evt_handler_after_recv` and `uo_tcp_conn_next_close_cb_func`. -/
def clientReceive (c : HttpConn) (chunk : List UInt8) : Option (HttpConn × List Event) :=
  (receive junk id .close c.tcp c.res chunk).map fun r =>
    ({ c with tcp := r.1, res := r.2.1 }, r.2.2)

/-- `tcp_server_evt_handler_after_recv` and `uo_tcp_conn_next_send_cb_func`. -/
def serverReceive (reqHandlers : ℕ) (c : HttpConn) (chunk : List UInt8) :
    Option (HttpConn × List Event) :=
  (receive junk (fullyParsed reqHandlers) .send c.tcp c.req chunk).map fun r =>
    ({ c with tcp := r.1, req := r.2.1 }, r.2.2)

theorem serverReceive_eq (reqHandlers : ℕ) (c : HttpConn) (chunk : List UInt8) :
    c.receive junk reqHandlers chunk =
      (serverReceive junk reqHandlers c chunk).map Prod.fst := by
  simp only [HttpConn.receive, serverReceive, receive, HttpReceive.server_afterRecv,
    Option.bind_eq_bind, Option.map_bind, Function.comp_def, Option.map_some, Conn.nextSend]

def beforeSendRequest (req : Msg) : Except Fault (Msg × List UInt8) :=
  let req := if req.startLine then req else (setRequestLine req .get (text "/") .v1_1).1
  (writeToBuf req []).map fun bytes => (req, bytes)

/-- The response of a server to a request that no handler has answered. The file server, if there is
one, sets the response itself. -/
def unanswered (fileServer : Option (Msg → Msg → Msg)) (req res : Msg) : Msg :=
  match req.method, fileServer with
  | .get, some serve => serve req res
  | _, _ =>
    setContent (setStatusLine res .s400 .v1_1).1 (text "400 Bad Request") (text "text/plain")

/-- The response after `uo_http_server_before_send_response` has seen to it. -/
def finalResponse (fileServer : Option (Msg → Msg → Msg)) (req res : Msg) : Msg :=
  if res.startLine then res else unanswered fileServer req res

def beforeSendResponse (fileServer : Option (Msg → Msg → Msg)) (req res : Msg) :
    Except Fault (Msg × List UInt8) :=
  let res := finalResponse fileServer req res
  (writeToBuf res []).map fun bytes => (res, bytes)

/-- A connection, what `uo_tcp_conn_send` has yet to write while it runs, and the messages with
which the handlers of `after_recv_msg` have been run. -/
structure Endpoint where
  conn : HttpConn
  unsent : Option (List UInt8)
  received : List Msg

/-- The handlers of `before_send` have written a message. -/
def Endpoint.sends (e : Endpoint) (wbuf : Buf) : Endpoint :=
  { e with
    conn.tcp.state := .none
    conn.tcp.wbuf := wbuf
    unsent := some wbuf.content }

/-- A write of `uo_tcp_conn_send`, of which the socket takes `n` bytes. -/
def Endpoint.write (e : Endpoint) (n : ℕ) : Option (List UInt8 × Endpoint) :=
  e.unsent.bind fun bytes =>
    (ByteStreams.cut bytes n).map fun c => (c.1, { e with unsent := some c.2 })

/-- The handlers that a receive has put in front are run with the message. -/
def Endpoint.raised (e : Endpoint) (conn : HttpConn) (msg : Msg) (events : List Event) : Endpoint :=
  { e with conn, received := if .afterRecvMsg ∈ events then e.received ++ [msg] else e.received }

namespace Client

/-- A connection of a client: `uo_tcp_conn_create_for_client`, `uo_http_conn_create_for_client`, and
`uo_tcp_conn_next_send_cb_func` in `after_open`, with the request that handlers have composed. -/
def opened (req : Msg) : Endpoint :=
  ⟨⟨(TcpConn.create junk).nextSend, req, create .response [], Buf.alloc junk 0x200⟩, none, []⟩

/-- `tcp_client_evt_handler_before_send`; or, when everything has been written, the handlers of
`after_send` and `uo_tcp_conn_after_send`. -/
def act (e : Endpoint) : Option Endpoint :=
  match e.unsent with
  | none => do
    guard (e.conn.tcp.state = .send)
    let r ← (beforeSendRequest e.conn.req).toOption
    let wbuf ← e.conn.tcp.wbuf.memcpyAppend junk r.2
    some { e.sends wbuf with conn.req := r.1 }
  | some [] =>
    some { e with conn.tcp := HttpKeepAlive.afterSend e.conn.tcp.nextRecv, unsent := none }
  | some _ => none

def read (e : Endpoint) (chunk : List UInt8) : Option Endpoint := do
  guard (e.unsent = none)
  let r ← clientReceive junk e.conn chunk
  some (e.raised r.1 r.1.res r.2)

end Client

namespace Server

/-- A connection of a server. -/
def opened : Endpoint := ⟨HttpKeepAlive.opened junk, none, []⟩

/-- `tcp_server_evt_handler_before_send`; or, when everything has been written, the handlers of
`after_send` and `uo_tcp_conn_after_send`. The handlers of the request have set the response. -/
def act (respond : Msg → Msg) (fileServer : Option (Msg → Msg → Msg)) (e : Endpoint) :
    Option Endpoint :=
  match e.unsent with
  | none => do
    guard (e.conn.tcp.state = .send)
    let r ← (beforeSendResponse fileServer e.conn.req (respond e.conn.req)).toOption
    let wbuf ← e.conn.tcp.wbuf.memcpyAppend junk r.2
    some { e.sends wbuf with conn.res := r.1 }
  | some [] =>
    let conn := e.conn.afterSendResponse
    some { e with
      conn := { conn with tcp := HttpKeepAlive.afterSend conn.tcp.nextRecv }
      unsent := none }
  | some _ => none

def read (reqHandlers : ℕ) (e : Endpoint) (chunk : List UInt8) : Option Endpoint := do
  guard (e.unsent = none)
  let r ← serverReceive junk reqHandlers e.conn chunk
  some (e.raised r.1 r.1.req r.2)

end Server

variable {junk} {finish : Msg → Msg} {next : State} {tcp : Conn} {stored msg msg' : Msg}
  {chunk : List UInt8} {events : List Event}

theorem buf_parseStartLine {type : MsgType} {p : List UInt8} {b : Bool}
    (h : parseStartLine (create type p) = .ok (msg, b)) : msg.buf = p := by
  obtain ⟨rfl, -, -⟩ | ⟨cr, -, hline⟩ := parseStartLine_cases h
  · rfl
  · exact hline.kept.buf

theorem buf_parseHeaders {b : Bool} (h : parseHeaders msg = .ok (msg', b)) :
    msg'.buf = msg.buf := by
  obtain ⟨-, ⟨rfl, -, -⟩ | ⟨i, headers, -, -, rfl⟩⟩ := parseHeaders_cases h <;> rfl

theorem length_parseBody (msg : Msg) : (parseBody msg).1.buf.length = msg.buf.length := by
  rw [parseBody]
  split
  · split
    · rfl
    · split
      · rfl
      · exact List.length_set
  · split <;> rfl

theorem length_reached (hfinish : ∀ msg, (finish msg).buf = msg.buf) {type : MsgType}
    {p : List UInt8} (h : Reached finish type p msg events) : msg.buf.length = p.length := by
  cases h with
  | line h => rw [buf_parseStartLine h]
  | started h hheaders => rw [buf_parseStartLine h]
  | headed h hheaders hbody =>
    rw [length_parseBody, buf_parseHeaders hheaders, buf_parseStartLine h]
  | complete h hheaders hbody =>
    rw [hfinish, length_parseBody, buf_parseHeaders hheaders, buf_parseStartLine h]

/-- The message that a connection has is this one, and its bytes are those in the receive buffer. -/
structure Holds (tcp : Conn) (stored msg : Msg) : Prop where
  same : { stored with buf := msg.buf } = msg
  content : tcp.rbuf.content = msg.buf

/-- A receive does with the connection what it does with the message, and leaves the bytes of the
message in the buffer. -/
theorem receive_spec (junk : ℕ → UInt8) (next : State) (hwf : tcp.Wf) (hstate : tcp.state = .recv)
    (hmsg : Holds tcp stored msg) (h : HttpReceive.receive finish msg chunk = .ok (msg', events))
    (hlen : msg'.buf.length = msg.buf.length + chunk.length) :
    ∃ tcp', receive junk finish next tcp stored chunk = some (tcp', msg', events) ∧ tcp'.Wf ∧
      tcp'.rbuf.content = msg'.buf ∧ tcp'.wbuf = tcp.wbuf ∧
      tcp'.state = if .nextRecv ∈ events then .recv else next := by
  have hwf' : Conn.Wf { tcp with state := .none } :=
    ⟨hwf.rbuf_valid, hwf.wbuf_valid, hwf.rbuf_size, hwf.wbuf_size⟩
  obtain ⟨tcp₁, hrecv, hwf₁, hcontent, hwbuf, hnone, -⟩ := hwf'.recv junk chunk
  have hbytes : tcp₁.rbuf.content = msg.buf ++ chunk := by
    rw [hcontent]
    exact congrArg (· ++ chunk) hmsg.content
  have hplace : tcp₁.rbuf.ptr = msg'.buf.length := by
    rw [← hwf₁.rbuf_valid.length_content, hbytes, List.length_append, hlen]
  have hptr := hwf₁.rbuf_valid.ptr_le
  obtain ⟨rbuf, hstore, hrptr, hrsize, hdata⟩ :=
    Buf.store_spec tcp₁.rbuf 0 msg'.buf (by omega)
  have hparse : HttpReceive.afterRecv finish { stored with buf := tcp₁.rbuf.content } =
      .ok (msg', events) := by
    have hsame : { stored with buf := msg.buf ++ chunk } = { msg with buf := msg.buf ++ chunk } :=
      congrArg (fun m : Msg => { m with buf := msg.buf ++ chunk }) hmsg.same
    rw [hbytes, hsame]
    exact h
  have hrcontent : rbuf.content = msg'.buf := by
    rw [Buf.content, hrptr, hplace, hdata, List.take_zero, List.nil_append, List.take_left]
  have hrvalid : rbuf.Valid := by
    refine ⟨?_, ?_⟩
    · rw [hrsize]
      exact hwf₁.rbuf_valid.size_pos
    · rw [hrptr, hrsize]
      exact hptr
  have hkept : Conn.Wf { tcp₁ with rbuf } :=
    ⟨hrvalid, hwf₁.wbuf_valid, hrsize ▸ hwf₁.rbuf_size, hwf₁.wbuf_size⟩
  simp only [receive, hstate, guard_true, hrecv, hparse, hstore, Except.toOption,
    Option.bind_eq_bind, Option.pure_def, Option.bind_some]
  refine ⟨_, rfl, ?_⟩
  split
  · have hrecv' : Conn.Wf (Conn.nextRecv { tcp₁ with rbuf }) := hkept.nextState .recv
    refine ⟨hrecv'.nextState next, ?_, ?_, ?_⟩
    · rw [Conn.rbuf_nextState, Conn.nextRecv, Conn.rbuf_nextState]
      exact hrcontent
    · rw [Conn.wbuf_nextState, Conn.nextRecv, Conn.wbuf_nextState]
      exact hwbuf
    · simp only [Conn.nextRecv, Conn.nextState, hnone]
  · refine ⟨hkept.nextState next, ?_, ?_, ?_⟩
    · rw [Conn.rbuf_nextState]
      exact hrcontent
    · rw [Conn.wbuf_nextState]
      exact hwbuf
    · exact Conn.state_nextState _ _ hnone

variable {type : MsgType} {bytes p c : List UInt8}

theorem length_receiving (hfinish : ∀ msg, (finish msg).buf = msg.buf)
    (h : Receiving finish type p msg) : msg.buf.length = p.length := by
  cases h with
  | empty => rfl
  | part hne h hno => exact length_reached hfinish h

theorem receive_part (junk : ℕ → UInt8) (next : State)
    (hfinish : ∀ msg, (finish msg).buf = msg.buf) (hs : Sendable type bytes) (hwf : tcp.Wf)
    (hstate : tcp.state = .recv) (hmsg : Holds tcp stored msg)
    (h : Receiving finish type p msg) (hc : c ≠ []) (hp : p ++ c <+: bytes)
    (hne : p ++ c ≠ bytes) : ∃ tcp' msg' events,
      receive junk finish next tcp stored c = some (tcp', msg', events) ∧ tcp'.Wf ∧
        tcp'.state = .recv ∧ Holds tcp' msg' msg' ∧ tcp'.wbuf = tcp.wbuf ∧
        Receiving finish type (p ++ c) msg' ∧ .afterRecvMsg ∉ events := by
  obtain ⟨msg', events, hreceive, h', hnext, hno⟩ := hs.receive_part h hc hp hne
  have hlen : msg'.buf.length = msg.buf.length + c.length := by
    rw [length_receiving hfinish h', length_receiving hfinish h, List.length_append]
  obtain ⟨tcp', hrecv, hwf', hbuf', hwbuf, hstate'⟩ :=
    receive_spec junk next hwf hstate hmsg hreceive hlen
  rw [if_pos hnext] at hstate'
  exact ⟨tcp', msg', events, hrecv, hwf', hstate', ⟨rfl, hbuf'⟩, hwbuf, h', hno⟩

theorem receive_last (junk : ℕ → UInt8) (next : State)
    (hfinish : ∀ msg, (finish msg).buf = msg.buf) (hs : Sendable type bytes) (hwf : tcp.Wf)
    (hstate : tcp.state = .recv) (hmsg : Holds tcp stored msg)
    (h : Receiving finish type p msg) (hc : c ≠ []) (hp : p ++ c = bytes) : ∃ tcp' msg' events,
      receive junk finish next tcp stored c = some (tcp', msg', events) ∧ tcp'.Wf ∧
        tcp'.state = next ∧ tcp'.wbuf = tcp.wbuf ∧
        Reached finish type bytes msg' [.afterRecvHeaders, .afterRecvMsg] ∧
        .afterRecvMsg ∈ events := by
  obtain ⟨msg', events, hreceive, h', hno, hmem⟩ := hs.receive_last h hc hp
  have hlen : msg'.buf.length = msg.buf.length + c.length := by
    rw [length_reached hfinish h', length_receiving hfinish h, ← hp, List.length_append]
  obtain ⟨tcp', hrecv, hwf', hbuf', hwbuf, hstate'⟩ :=
    receive_spec junk next hwf hstate hmsg hreceive hlen
  rw [if_neg hno] at hstate'
  exact ⟨tcp', msg', events, hrecv, hwf', hstate', hwbuf, h', hmem⟩

variable {e e' : Endpoint} {n : ℕ} {rest : List UInt8}

theorem write_spec (hunsent : e.unsent = some rest) (h : e.write n = some (c, e')) :
    ∃ left, c ≠ [] ∧ rest = c ++ left ∧ e' = { e with unsent := some left } := by
  rw [Endpoint.write, hunsent, Option.bind_some] at h
  obtain ⟨⟨c, left⟩, hcut, h⟩ := Option.map_eq_some_iff.mp h
  obtain ⟨rfl, rfl⟩ := Prod.mk.inj h
  obtain ⟨hrest, hc⟩ := ByteStreams.cut_eq_some hcut
  exact ⟨left, hc, hrest, rfl⟩

theorem exists_write (hunsent : e.unsent = some rest) (hne : rest ≠ []) :
    ∃ n r, e.write n = some r := by
  obtain ⟨n, hcut⟩ := ByteStreams.exists_cut hne
  refine ⟨n, (rest, { e with unsent := some [] }), ?_⟩
  rw [Endpoint.write, hunsent, Option.bind_some, hcut]
  rfl

theorem write_none (hunsent : e.unsent = none) (n : ℕ) : e.write n = none := by
  rw [Endpoint.write, hunsent]
  rfl

theorem afterSend_wf (hwf : tcp.Wf) (state : State) :
    (HttpKeepAlive.afterSend (tcp.nextState state)).Wf := by
  have hwf' := hwf.nextState state
  exact ⟨⟨hwf'.rbuf_valid.size_pos, Nat.zero_le _⟩, ⟨hwf'.wbuf_valid.size_pos, Nat.zero_le _⟩,
    hwf'.rbuf_size, hwf'.wbuf_size⟩

theorem content_afterSend (tcp : Conn) : (HttpKeepAlive.afterSend tcp).rbuf.content = [] ∧
    (HttpKeepAlive.afterSend tcp).wbuf.content = [] := ⟨List.take_zero, List.take_zero⟩

theorem exists_sends (junk : ℕ → UInt8) (hwf : tcp.Wf) (hempty : tcp.wbuf.content = [])
    (bytes : List UInt8) : ∃ wbuf, tcp.wbuf.memcpyAppend junk bytes = some wbuf ∧
      Conn.Wf { tcp with state := .none, wbuf } ∧ wbuf.content = bytes := by
  obtain ⟨wbuf, hwrite, hvalid, hcontent, -, hsize⟩ :=
    Buf.memcpyAppend_spec junk hwf.wbuf_valid bytes
  rw [hempty, List.nil_append] at hcontent
  exact ⟨wbuf, hwrite, ⟨hwf.rbuf_valid, hvalid, hwf.rbuf_size,
    Nat.le_trans hwf.wbuf_size hsize⟩, hcontent⟩

end Libuo.HttpConns
