import Libuo.HttpConns
import Libuo.HttpRequests

/-!
# Requests on keep-alive connections

A whole request that comes on a connection between two requests is answered, whatever has been
received behind it, and the connection is kept.
-/

namespace Libuo.HttpKeepAlive
open CStrings CText HttpMsg HttpHeaders HttpStartLine HttpServer HttpRequests

variable {junk : ℕ → UInt8} {reqHandlers : ℕ} {c c' : HttpConn} {r : Request} {ver : Ver}
  {res : Msg}

theorem afterRecv_before (hver : verOf (lastChar r.version) = some ver)
    (hs : swallowed r.before = false) (rest : List UInt8) :
    afterRecv reqHandlers (create .request (r.bytes ++ rest)) =
      .ok (fullyParsed reqHandlers (r.bodiedBefore ver rest),
        [.afterRecvHeaders, .afterRecvMsg]) := by
  have hline := (bytes_eq r).1
  have hhead : (r.bytes ++ rest).drop r.line.length =
      block r.lines ++ (blankLine ++ (r.body ++ rest)) := by
    rw [Request.bytes, Request.head]
    simp only [List.append_assoc, List.drop_left]
  have hstart : parseStartLine (create .request (r.bytes ++ rest)) =
      .ok (r.started ver (r.bytes ++ rest), true) := by
    have hbuf : (create .request (r.bytes ++ rest)).buf =
        r.line ++ (crlf ++ (r.bytes.drop (r.line.length + 2) ++ rest)) := by
      change r.bytes ++ rest = _
      conv_lhs => rw [hline]
      simp only [List.append_assoc]
    rw [parseStartLine_eq rfl hbuf, hver]
    rfl
  have hno : ¬ (create .request (r.bytes ++ rest)).startLine = true := Bool.false_ne_true
  have hnoHeaders : ¬ (r.started ver (r.bytes ++ rest)).hasHeaders = true := Bool.false_ne_true
  rw [afterRecv, if_neg hno, hstart]
  change afterRecvStartLine reqHandlers (r.started ver (r.bytes ++ rest)) = _
  rw [afterRecvStartLine, if_neg hnoHeaders, afterRecvHeaders, parseHeaders_eq hhead]
  change Except.ok _ = _
  simp only [parseBody_before hs]
  rfl

/-- A receive that completes the request leaves the connection with a send pending. -/
theorem receive_spec (hc : c.Waiting) {chunk : List UInt8} {req : Msg} {events : List Event}
    (hparse : afterRecv reqHandlers (create .request chunk) = .ok (req, events))
    (hevents : .nextRecv ∉ events) (hlen : req.buf.length = chunk.length) :
    ∃ c', c.receive junk reqHandlers chunk = some c' ∧ c'.tcp.state = .send ∧
      c'.tcp.wbuf.Valid ∧ c'.req = req := by
  have hholds : HttpConns.Holds c.tcp c.req (create .request []) := ⟨by rw [hc.req], hc.empty⟩
  have hreceive : HttpReceive.receive (fullyParsed reqHandlers) (create .request []) chunk =
      .ok (req, events) := hparse
  obtain ⟨tcp, htcp, hwf, -, -, hstate⟩ :=
    HttpConns.receive_spec junk .send hc.wf hc.state hholds hreceive (by simpa [create] using hlen)
  rw [if_neg hevents] at hstate
  refine ⟨{ c with tcp, req }, ?_, hstate, hwf.wbuf_valid, rfl⟩
  rw [HttpConns.serverReceive_eq, HttpConns.serverReceive, htcp]
  rfl

theorem send_spec (hstate : c.tcp.state = .send) (hwbuf : c.tcp.wbuf.Valid)
    (hkeep : getHeader c.req (text "connection") ≠ some (text "close")) {response : List UInt8}
    (hres : writeToBuf res [] = .ok response) :
    ∃ c', c.send junk res = some c' ∧ c'.tcp.state = .recv := by
  obtain ⟨wbuf, hwrite, -⟩ := Buf.memcpyAppend_spec junk hwbuf response
  have hopen : ∀ tcp : TcpConn.Conn, HttpConn.shouldClose { c with tcp, res } = false :=
    fun _ => decide_eq_false hkeep
  simp only [HttpConn.send, hstate, guard_true, hres, Except.toOption, Option.bind_eq_bind,
    Option.pure_def, Option.bind_some, hwrite]
  refine ⟨_, rfl, ?_⟩
  simp [HttpConn.afterSendResponse, hopen, HttpConn.reset, afterSend, TcpConn.Conn.nextRecv,
    TcpConn.Conn.nextState]

/-- A whole request that does not ask for a close is answered, whatever has been received behind
it, and the connection is kept. -/
theorem serve_request (hc : c.Waiting) (hver : verOf (lastChar r.version) = some ver)
    (hs : swallowed r.before = false)
    (hkeep : getHeader (r.bodied ver) (text "connection") ≠ some (text "close"))
    {response : List UInt8} (hres : writeToBuf res [] = .ok response) (rest : List UInt8) :
    ∃ c', c.serve junk reqHandlers [] r.bytes rest res = some c' ∧ c'.tcp.state = .recv := by
  obtain ⟨c₁, hreceive, hsending, hwbuf, hreq⟩ :
      ∃ c₁, c.receive junk reqHandlers (r.bytes ++ rest) = some c₁ ∧ c₁.tcp.state = .send ∧
        c₁.tcp.wbuf.Valid ∧ c₁.req = fullyParsed reqHandlers (r.bodiedBefore ver rest) :=
    receive_spec hc (afterRecv_before hver hs rest) (by decide) List.length_set
  obtain ⟨c', hsend, hstate⟩ : ∃ c', c₁.send junk res = some c' ∧ c'.tcp.state = .recv :=
    send_spec hsending hwbuf (hreq ▸ hkeep) hres
  refine ⟨c', ?_, hstate⟩
  change (c.receive junk reqHandlers (r.bytes ++ rest)).bind _ = _
  rw [hreceive]
  exact hsend

theorem HttpConn.opened_waiting (junk : ℕ → UInt8) : (opened junk).Waiting := by
  refine ⟨(TcpConn.Conn.create_wf junk).nextState _, rfl, ?_, rfl⟩
  simp [opened, TcpConn.Conn.nextRecv, TcpConn.create, Buf.content, Buf.alloc]

/-- The first request on a connection. -/
theorem serve_opened (hver : verOf (lastChar r.version) = some ver)
    (hs : swallowed r.before = false)
    (hkeep : getHeader (r.bodied ver) (text "connection") ≠ some (text "close"))
    {response : List UInt8} (hres : writeToBuf res [] = .ok response) (rest : List UInt8) :
    ∃ c', (opened junk).serve junk reqHandlers [] r.bytes rest res = some c' ∧
      c'.tcp.state = .recv :=
  serve_request (HttpConn.opened_waiting junk) hver hs hkeep hres rest

end Libuo.HttpKeepAlive
