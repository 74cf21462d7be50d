import Libuo.HttpServer
import Libuo.TcpConn

/-!
# Keep-alive connections

A request is received, answered, and the connection of a server goes back to receiving. What has
been received behind the request is then no longer before the position of the receive buffer.
-/

namespace Libuo.HttpKeepAlive
open CText HttpMsg HttpServer

/-- `uo_http_conn` of a server, with its `tcp_conn`. The request is parsed in the receive buffer,
and has the bytes of its content. -/
structure HttpConn where
  tcp : TcpConn.Conn
  req : Msg
  res : Msg
  buf : Buf

variable (junk : ℕ → UInt8) (reqHandlers : ℕ)

/-- A connection with a receive pending: `uo_tcp_conn_create_for_server`,
`uo_http_conn_create_for_server`, and `uo_tcp_conn_next_recv_cb_func` in `after_open`. -/
def opened : HttpConn :=
  ⟨(TcpConn.create junk).nextRecv, create .request [], create .response [], Buf.alloc junk 0x200⟩

namespace HttpConn

/-- A pending receive: `uo_tcp_conn_recv`, then the handlers of `after_recv`,
`tcp_server_evt_handler_after_recv` and `uo_tcp_conn_next_send_cb_func`. -/
def receive (c : HttpConn) (chunk : List UInt8) : Option HttpConn := do
  guard (c.tcp.state = .recv)
  let tcp ← { c.tcp with state := .none }.recv junk chunk
  let r ← (afterRecv reqHandlers { c.req with buf := tcp.rbuf.content }).toOption
  let rbuf ← tcp.rbuf.store 0 r.1.buf
  let tcp := { tcp with rbuf }
  let tcp := if .nextRecv ∈ r.2 then tcp.nextRecv else tcp
  some { c with tcp := tcp.nextSend, req := r.1 }

def receiveAll (c : HttpConn) (chunks : List (List UInt8)) : Option HttpConn :=
  chunks.foldlM (receive junk reqHandlers) c

/-- `uo_http_conn_reset` of a server. -/
def reset (c : HttpConn) : HttpConn :=
  { c with
    buf := c.buf.setPtrAbs 0
    req := create .request c.tcp.rbuf.content
    res := create .response [] }

/-- The test of `tcp_server_evt_handler_after_send`. -/
def shouldClose (c : HttpConn) : Bool := getHeader c.req (text "connection") = some (text "close")

/-- `tcp_server_evt_handler_after_send`. -/
def afterSendResponse (c : HttpConn) : HttpConn :=
  reset { c with tcp := if c.shouldClose then c.tcp.nextClose else c.tcp.nextRecv }

end HttpConn

def afterSend (c : TcpConn.Conn) : TcpConn.Conn :=
  { c with rbuf := c.rbuf.setPtrAbs 0, wbuf := c.wbuf.setPtrAbs 0, evtArg := ⟨0, false⟩ }

namespace HttpConn

/-- A pending send: `uo_http_server_before_send_response`, `uo_tcp_conn_send` when it has written
everything, then the handlers of `after_send`, `tcp_server_evt_handler_after_send` and
`uo_tcp_conn_next_recv_cb_func`, and `uo_tcp_conn_after_send`. -/
def send (c : HttpConn) (res : Msg) : Option HttpConn := do
  guard (c.tcp.state = .send)
  let response ← (writeToBuf res []).toOption
  let wbuf ← c.tcp.wbuf.memcpyAppend junk response
  let c := afterSendResponse { c with tcp := { c.tcp with state := .none, wbuf }, res }
  some { c with tcp := afterSend c.tcp.nextRecv }

/-- A request comes in chunks, the last of them with other bytes behind it, and is answered. -/
def serve (c : HttpConn) (chunks : List (List UInt8)) (last rest : List UInt8) (res : Msg) :
    Option HttpConn := do
  let c ← c.receiveAll junk reqHandlers chunks
  let c ← c.receive junk reqHandlers (last ++ rest)
  c.send junk res

/-- Once the request is answered and a receive is pending again, the receive buffer has exactly
the bytes behind the request before its position. -/
def KeepsRest (c : HttpConn) (chunks : List (List UInt8)) (last rest : List UInt8) (res : Msg) :
    Prop :=
  ∀ c', c.serve junk reqHandlers chunks last rest res = some c' → c'.tcp.state = .recv →
    c'.tcp.rbuf.content = rest

/-- A connection between two requests. -/
structure Waiting (c : HttpConn) : Prop where
  wf : c.tcp.Wf
  state : c.tcp.state = .recv
  empty : c.tcp.rbuf.content = []
  req : c.req = create .request []

variable {junk reqHandlers} {c c' : HttpConn} {chunks : List (List UInt8)}
  {last rest : List UInt8} {res : Msg}

theorem content_of_send (h : c.send junk res = some c') : c'.tcp.rbuf.content = [] := by
  simp only [send, Option.bind_eq_bind, Option.bind_eq_some_iff] at h
  obtain ⟨-, -, response, -, wbuf, -, h⟩ := h
  rw [← Option.some.inj h]
  exact List.take_zero

theorem content_of_serve (h : c.serve junk reqHandlers chunks last rest res = some c') :
    c'.tcp.rbuf.content = [] := by
  simp only [serve, Option.bind_eq_bind, Option.bind_eq_some_iff] at h
  obtain ⟨-, -, c₁, -, h⟩ := h
  exact content_of_send h

/-- On a connection that is kept, what has been received behind an answered request is before the
position afterwards if and only if it is nothing. -/
theorem keepsRest_iff (hserve : c.serve junk reqHandlers chunks last rest res = some c')
    (hkept : c'.tcp.state = .recv) : c.KeepsRest junk reqHandlers chunks last rest res ↔
      rest = [] := by
  have hcontent := content_of_serve hserve
  constructor
  · intro h
    rw [← h c' hserve hkept, hcontent]
  · rintro rfl c'' hserve' -
    exact content_of_serve hserve'

def ok : Msg := (setStatusLine (create .response []) .s200 .v1_1).1

def post : List UInt8 := text "POST / HTTP/1.1\r\nContent-Length: 2\r\n\r\nhi"

theorem serve_post : ∃ c', (opened fun _ => 0).serve (fun _ => 0) 0 [] post (text "GET /") ok =
    some c' ∧ c'.tcp.state = .recv := by
  have hstate : ((opened fun _ => 0).serve (fun _ => 0) 0 [] post (text "GET /") ok).map
      (fun c' => c'.tcp.state) = some .recv := by decide +kernel
  exact Option.map_eq_some_iff.mp hstate

theorem keepsRest_iff_post : ∃ c', (opened fun _ => 0).serve (fun _ => 0) 0 [] post
    (text "GET /") ok = some c' ∧ c'.tcp.state = .recv ∧
      ((opened fun _ => 0).KeepsRest (fun _ => 0) 0 [] post (text "GET /") ok ↔
        text "GET /" = []) := by
  obtain ⟨c', hserve, hkept⟩ := serve_post
  exact ⟨c', hserve, hkept, keepsRest_iff hserve hkept⟩

theorem not_keepsRest_post :
    ¬ (opened fun _ => 0).KeepsRest (fun _ => 0) 0 [] post (text "GET /") ok := by
  intro h
  obtain ⟨c', hserve, hkept⟩ := serve_post
  have hrest := (content_of_serve hserve).symm.trans (h c' hserve hkept)
  exact absurd hrest (by decide)

end HttpConn

end Libuo.HttpKeepAlive
