import Libuo.HttpConns

/-!
# A server and a request

A server that reads the chunks of a request, up to the response that has been written piece by
piece. Between two requests its connection is as it was when it was opened.
-/

namespace Libuo.HttpAnswers
open HttpMsg HttpConns ByteStreams
open HttpServer (fullyParsed Event)
open HttpReceive (Reached Receiving Sendable)
open HttpRoundTrip HttpDelivery

/-- What there is besides this library on the side of a server: the bytes that have not been
initialised, the response to each request, and the file server if there is one. -/
structure Service where
  junk : ℕ → UInt8
  reqHandlers : ℕ
  respond : Msg → Msg
  fileServer : Option (Msg → Msg → Msg)

def server (x : Service) : Party UInt8 Endpoint :=
  ⟨Server.act x.junk x.respond x.fileServer, Endpoint.write, Server.read x.junk x.reqHandlers⟩

/-- The bytes of a request and of the response to it, and what the request is parsed as when it
comes at once. -/
structure Answers (x : Service) (q a : List UInt8) (request : Msg) : Prop where
  parsed : Reached (fullyParsed x.reqHandlers) .request q request [.afterRecvHeaders, .afterRecvMsg]
  answered : ∃ res, beforeSendResponse x.fileServer request (x.respond request) = .ok (res, a)
  sendable : Sendable .request q

/-- The request asks for the close. -/
def Closes (request : Msg) : Prop := getHeader request (CText.text "connection") =
  some (CText.text "close")

instance (request : Msg) : Decidable (Closes request) := inferInstanceAs (Decidable (_ = _))

variable {x : Service} {q a r w c : List UInt8} {request msg msg' : Msg} {e e' : Endpoint}
  {k n : ℕ} {log : List Msg}

theorem reached_unique {finish : Msg → Msg} {type : MsgType} {p : List UInt8}
    {events events' : List Event} (h : Reached finish type p msg events)
    (h' : Reached finish type p msg' events') : msg = msg' := by
  rw [← HttpReceive.reached_iff] at h h'
  exact (Prod.mk.inj (Except.ok.inj (h.symm.trans h'))).1

/-- No bytes come behind the last ones. -/
theorem not_part (hc : c ≠ []) : ¬ r ++ c <+: r := by
  intro hp
  have hlen := hp.length_le
  rw [List.length_append] at hlen
  have hpos := List.length_pos_of_ne_nil hc
  omega

/-- A server that has read `r` of a request and written `w` of the response, with at most `k` steps
of its own left. It has had the messages of `log` before. -/
inductive ServerAt (q a : List UInt8) (x : Service) (request : Msg) (log : List Msg) :
    ℕ → List UInt8 → List UInt8 → Endpoint → Prop
  | receiving {e : Endpoint} {r : List UInt8} {msg : Msg} (hwf : e.conn.tcp.Wf)
    (hstate : e.conn.tcp.state = .recv) (hunsent : e.unsent = none)
    (hempty : e.conn.tcp.wbuf.content = []) (hmsg : Holds e.conn.tcp e.conn.req msg)
    (hreq : Receiving (fullyParsed x.reqHandlers) .request r msg) (hp : r <+: q) (hr : r ≠ q)
    (hlog : e.received = log) : ServerAt q a x request log 2 r [] e
  | answering {e : Endpoint} (hwf : e.conn.tcp.Wf) (hstate : e.conn.tcp.state = .send)
    (hunsent : e.unsent = none) (hempty : e.conn.tcp.wbuf.content = [])
    (hreq : e.conn.req = request) (hlog : e.received = log ++ [request]) :
    ServerAt q a x request log 2 q [] e
  | writing {e : Endpoint} {w rest : List UInt8} (hwf : e.conn.tcp.Wf)
    (hstate : e.conn.tcp.state = .none) (hunsent : e.unsent = some rest) (hbytes : w ++ rest = a)
    (hreq : e.conn.req = request) (hlog : e.received = log ++ [request]) :
    ServerAt q a x request log 1 q w e
  | done {e : Endpoint} (hwf : e.conn.tcp.Wf)
    (hstate : e.conn.tcp.state = if Closes request then .close else .recv)
    (hunsent : e.unsent = none) (hempty : e.conn.tcp.wbuf.content = [])
    (hmsg : Holds e.conn.tcp e.conn.req (create .request []))
    (hlog : e.received = log ++ [request]) : ServerAt q a x request log 0 q a e

/-- A connection on which a receive is pending, for a request of which nothing has come. -/
structure Ready (e : Endpoint) (log : List Msg) : Prop where
  wf : e.conn.tcp.Wf
  state : e.conn.tcp.state = .recv
  unsent : e.unsent = none
  empty : e.conn.tcp.wbuf.content = []
  holds : Holds e.conn.tcp e.conn.req (create .request [])
  received : e.received = log

theorem ready_opened (junk : ℕ → UInt8) : Ready (Server.opened junk) [] where
  wf := (TcpConn.Conn.create_wf junk).nextState .recv
  state := rfl
  unsent := rfl
  empty := List.take_zero
  holds := ⟨rfl, List.take_zero⟩
  received := rfl

theorem Ready.serverAt (h : Ready e log) (hx : Answers x q a request) :
    ServerAt q a x request log 2 [] [] e :=
  .receiving h.wf h.state h.unsent h.empty h.holds .empty List.nil_prefix
    (HttpReceive.complete_ne_nil hx.sendable.complete).symm h.received

/-- A response is followed by a receive or by the close. -/
theorem state_afterSendResponse {c : HttpKeepAlive.HttpConn} (h : c.tcp.state = .none) :
    (HttpKeepAlive.afterSend c.afterSendResponse.tcp.nextRecv).state =
      if Closes c.req then .close else .recv := by
  have hnext : c.afterSendResponse.tcp =
      if c.shouldClose then c.tcp.nextClose else c.tcp.nextRecv := rfl
  have hcloses : c.shouldClose = true ↔ Closes c.req := decide_eq_true_iff
  rw [hnext]
  by_cases hclose : Closes c.req
  · rw [if_pos hclose, if_pos (hcloses.mpr hclose)]
    simp [HttpKeepAlive.afterSend, TcpConn.Conn.nextRecv, TcpConn.Conn.nextClose,
      TcpConn.Conn.nextState, h]
  · rw [if_neg hclose, if_neg (mt hcloses.mp hclose)]
    simp [HttpKeepAlive.afterSend, TcpConn.Conn.nextRecv, TcpConn.Conn.nextState, h]

theorem afterSendResponse_wf {c : HttpKeepAlive.HttpConn} (h : c.tcp.Wf) :
    (HttpKeepAlive.afterSend c.afterSendResponse.tcp.nextRecv).Wf := by
  apply afterSend_wf
  have hnext : c.afterSendResponse.tcp =
      if c.shouldClose then c.tcp.nextClose else c.tcp.nextRecv := rfl
  rw [hnext]
  split
  · exact h.nextState .close
  · exact h.nextState .recv

theorem server_act (hx : Answers x q a request) (h : ServerAt q a x request log k r w e)
    (hact : (server x).act e = some e') :
    ∃ k', k' < k ∧ ServerAt q a x request log k' r w e' := by
  change Server.act x.junk x.respond x.fileServer e = some e' at hact
  cases h with
  | receiving hwf hstate hunsent hempty hmsg hreq hp hne hlog =>
    rw [Server.act, hunsent] at hact
    simp [hstate, guard] at hact
  | answering hwf hstate hunsent hempty hreq hlog =>
    obtain ⟨res, hanswered⟩ := hx.answered
    obtain ⟨wbuf, hwrite, hwf', hcontent⟩ := exists_sends x.junk hwf hempty a
    rw [Server.act, hunsent] at hact
    simp only [hstate, guard_true, hreq, hanswered, Except.toOption, Option.bind_eq_bind,
      Option.pure_def, Option.bind_some, hwrite] at hact
    obtain rfl := Option.some.inj hact
    exact ⟨1, by omega, .writing hwf' rfl rfl hcontent hreq hlog⟩
  | @writing _ _ rest hwf hstate hunsent hbytes hreq hlog =>
    rw [Server.act, hunsent] at hact
    cases rest with
    | cons b rest => cases hact
    | nil =>
      obtain rfl := Option.some.inj hact
      rw [List.append_nil] at hbytes
      subst hbytes
      refine ⟨0, by omega, .done (afterSendResponse_wf hwf) ?_ rfl (content_afterSend _).2
        ⟨rfl, (content_afterSend _).1⟩ hlog⟩
      rw [← hreq]
      exact state_afterSendResponse hstate
  | done hwf hstate hunsent hempty hmsg hlog =>
    have hsend : e.conn.tcp.state ≠ .send := by
      rw [hstate]
      split <;> simp
    rw [Server.act, hunsent] at hact
    simp [hsend, guard] at hact

theorem server_write (h : ServerAt q a x request log k r w e)
    (hwrite : e.write n = some (c, e')) : c ≠ [] ∧ ServerAt q a x request log k r (w ++ c) e' := by
  cases h with
  | receiving hwf hstate hunsent hempty hmsg hreq hp hne hlog =>
    rw [write_none hunsent] at hwrite
    cases hwrite
  | answering hwf hstate hunsent hempty hreq hlog =>
    rw [write_none hunsent] at hwrite
    cases hwrite
  | writing hwf hstate hunsent hbytes hreq hlog =>
    obtain ⟨left, hc, rfl, rfl⟩ := write_spec hunsent hwrite
    rw [← List.append_assoc] at hbytes
    exact ⟨hc, .writing hwf hstate rfl hbytes hreq hlog⟩
  | done hwf hstate hunsent hempty hmsg hlog =>
    rw [write_none hunsent] at hwrite
    cases hwrite

/-- The server takes every chunk of the request. -/
theorem server_receive (hx : Answers x q a request) (hwf : e.conn.tcp.Wf)
    (hstate : e.conn.tcp.state = .recv) (hunsent : e.unsent = none)
    (hempty : e.conn.tcp.wbuf.content = []) (hmsg : Holds e.conn.tcp e.conn.req msg)
    (hreq : Receiving (fullyParsed x.reqHandlers) .request r msg) (hlog : e.received = log)
    (hc : c ≠ []) (hp : r ++ c <+: q) :
    ∃ e', (server x).read e c = some e' ∧ ServerAt q a x request log 2 (r ++ c) [] e' := by
  change ∃ e', Server.read x.junk x.reqHandlers e c = some e' ∧ _
  have hfinish : ∀ msg : Msg, (fullyParsed x.reqHandlers msg).buf = msg.buf := fun _ => rfl
  by_cases hlast : r ++ c = q
  · obtain ⟨tcp, msg', events, hreceive, hwf', hstate', hwbuf, hparsed, hmem⟩ :=
      receive_last x.junk .send hfinish hx.sendable hwf hstate hmsg hreq hc hlast
    obtain rfl := reached_unique hparsed hx.parsed
    rw [Server.read, hunsent, serverReceive, hreceive]
    refine ⟨_, rfl, ?_⟩
    rw [hlast]
    refine .answering hwf' hstate' hunsent (hwbuf ▸ hempty) rfl ?_
    simp [Endpoint.raised, hmem, hlog]
  · obtain ⟨tcp, msg', events, hreceive, hwf', hstate', hmsg', hwbuf, hreq', hno⟩ :=
      receive_part x.junk .send hfinish hx.sendable hwf hstate hmsg hreq hc hp hlast
    rw [Server.read, hunsent, serverReceive, hreceive]
    refine ⟨_, rfl, .receiving hwf' hstate' hunsent (hwbuf ▸ hempty) hmsg' hreq' hp hlast ?_⟩
    simp [Endpoint.raised, hno, hlog]

theorem server_read (hx : Answers x q a request) (h : ServerAt q a x request log k r w e)
    (hc : c ≠ []) (hp : r ++ c <+: q) (hread : (server x).read e c = some e') :
    ServerAt q a x request log k (r ++ c) w e' := by
  cases h with
  | receiving hwf hstate hunsent hempty hmsg hreq hpart hne hlog =>
    obtain ⟨e₁, hread₁, h₁⟩ :=
      server_receive hx hwf hstate hunsent hempty hmsg hreq hlog hc hp
    obtain rfl := Option.some.inj (hread₁.symm.trans hread)
    exact h₁
  | answering | writing | done => exact absurd hp (not_part hc)

theorem serverAt_written (h : ServerAt q a x request log k r w e) : w <+: a := by
  cases h with
  | receiving | answering => exact List.nil_prefix
  | writing hwf hstate hunsent hbytes hreq hlog => exact ⟨_, hbytes⟩
  | done => exact List.prefix_refl _

theorem follows_server (hx : Answers x q a request) :
    Follows (server x) (· < ·) (fun _ => q) (fun _ => a) (ServerAt q a x request log) where
  written h := serverAt_written h
  act h hact := server_act hx h hact
  write h hwrite := server_write h hwrite
  read h hc hp hread := server_read hx h hc hp hread

/-- A server waits for the rest of a request. -/
theorem server_waits (hx : Answers x q a request) (h : ServerAt q a x request log k r w e) :
    Waits (server x) q r e := by
  intro c hc hp
  cases h with
  | receiving hwf hstate hunsent hempty hmsg hreq hpart hne hlog =>
    obtain ⟨e', hread, -⟩ := server_receive hx hwf hstate hunsent hempty hmsg hreq hlog hc hp
    exact ⟨e', hread⟩
  | answering | writing | done => exact absurd hp (not_part hc)

/-- A server goes on while a response is being written, and when all of it has been. -/
theorem moves_of_unsent {rest : List UInt8} (hunsent : e.unsent = some rest) :
    Moves (server x) e := by
  by_cases hrest : rest = []
  · refine .inl ⟨{ e with
      conn := { e.conn.afterSendResponse with
        tcp := HttpKeepAlive.afterSend e.conn.afterSendResponse.tcp.nextRecv }
      unsent := none }, ?_⟩
    change Server.act x.junk x.respond x.fileServer e = _
    rw [Server.act, hunsent, hrest]
  · exact .inr (exists_write hunsent hrest)

/-- A server that has a request goes on until it has written the response. -/
theorem server_moves (hx : Answers x q a request) (h : ServerAt q a x request log k q w e)
    (hw : w ≠ a) : Moves (server x) e := by
  cases h with
  | receiving hwf hstate hunsent hempty hmsg hreq hp hne hlog => exact absurd rfl hne
  | answering hwf hstate hunsent hempty hreq hlog =>
    obtain ⟨res, hanswered⟩ := hx.answered
    obtain ⟨wbuf, hwrite, hwf', hcontent⟩ := exists_sends x.junk hwf hempty a
    refine .inl ⟨{ e.sends wbuf with conn.res := res }, ?_⟩
    change Server.act x.junk x.respond x.fileServer e = _
    rw [Server.act, hunsent]
    simp [hstate, hreq, hanswered, Except.toOption, hwrite]
  | writing hwf hstate hunsent hbytes hreq hlog => exact moves_of_unsent hunsent
  | done => exact absurd rfl hw

theorem writeToBuf_ne_nil {bytes dst : List UInt8} (h : writeToBuf msg dst = .ok bytes) :
    bytes ≠ [] := by
  rw [writeToBuf] at h
  cases hline : writeStartLine msg dst with
  | error e =>
    rw [hline] at h
    cases h
  | ok line =>
    rw [hline] at h
    cases hheaders : msg.headers.foldlM writeHeader line with
    | error e =>
      change (msg.headers.foldlM writeHeader line >>= _) = _ at h
      rw [hheaders] at h
      cases h
    | ok block =>
      change (msg.headers.foldlM writeHeader line >>= _) = _ at h
      rw [hheaders] at h
      rw [← Except.ok.inj h]
      simp [crlf, CText.text]

/-- A response has at least the end of its headers. -/
theorem Answers.response_ne_nil (h : Answers x q a request) : a ≠ [] := by
  obtain ⟨res, hanswered⟩ := h.answered
  rw [beforeSendResponse] at hanswered
  cases hwrite : writeToBuf (finalResponse x.fileServer request (x.respond request)) [] with
  | error e =>
    simp only [hwrite] at hanswered
    cases hanswered
  | ok bytes =>
    simp only [hwrite] at hanswered
    obtain ⟨-, rfl⟩ := Prod.mk.inj (Except.ok.inj hanswered)
    exact writeToBuf_ne_nil hwrite

theorem server_received (h : ServerAt q a x request log k r w e) :
    e.received = log ∨ e.received = log ++ [request] := by
  cases h with
  | receiving hwf hstate hunsent hempty hmsg hreq hp hne hlog => exact .inl hlog
  | answering hwf hstate hunsent hempty hreq hlog => exact .inr hlog
  | writing hwf hstate hunsent hbytes hreq hlog => exact .inr hlog
  | done hwf hstate hunsent hempty hmsg hlog => exact .inr hlog

theorem server_received_of_written (ha : a ≠ []) (h : ServerAt q a x request log k r w e)
    (hw : w = a) : e.received = log ++ [request] := by
  cases h with
  | receiving | answering => exact absurd hw.symm ha
  | writing hwf hstate hunsent hbytes hreq hlog => exact hlog
  | done hwf hstate hunsent hempty hmsg hlog => exact hlog

theorem server_part (h : ServerAt q a x request log k r w e) (hr : r ≠ q) :
    w = [] ∧ r <+: q ∧ e.received = log := by
  cases h with
  | receiving hwf hstate hunsent hempty hmsg hreq hp hne hlog => exact ⟨rfl, hp, hlog⟩
  | answering | writing | done => exact absurd rfl hr

theorem server_whole (h : ServerAt q a x request log k q w e) :
    e.received = log ++ [request] := by
  cases h with
  | receiving hwf hstate hunsent hempty hmsg hreq hp hne hlog => exact absurd rfl hne
  | answering hwf hstate hunsent hempty hreq hlog => exact hlog
  | writing hwf hstate hunsent hbytes hreq hlog => exact hlog
  | done hwf hstate hunsent hempty hmsg hlog => exact hlog

/-- A composed request is answered with a composed response. -/
theorem answers_of_composed {mq ma : Message} {qs as : List Call} (hq : Travels mq qs)
    (ha : Travels ma as) (hqtype : mq.start.type = .request)
    (hrespond : ∀ request, Carries request mq qs →
      finalResponse x.fileServer request (x.respond request) = compose ma as) :
    ∃ request, Answers x (bytes mq qs) (bytes ma as) request ∧ Carries request mq qs := by
  obtain ⟨request, hparsed, hrequest⟩ :=
    hq.carried (fullyParsed x.reqHandlers) (keepsMessage_fullyParsed x.reqHandlers)
  have hqbytes := hq.sendable
  rw [hqtype] at hparsed hqbytes
  refine ⟨request, ⟨hparsed, ⟨compose ma as, ?_⟩, hqbytes⟩, hrequest⟩
  rw [beforeSendResponse, hrespond request hrequest]
  simp only [ha.written]
  rfl

end Libuo.HttpAnswers
