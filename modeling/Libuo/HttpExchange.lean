import Libuo.HttpAnswers

/-!
# Exchanges

A client and a server, with the two streams between them. The socket of each takes as many bytes
of a message as it likes at a time, and those that have been written arrive in chunks of any size.
Whatever the order, the server gets the request and the client gets the response.
-/

namespace Libuo.HttpExchange
open HttpMsg HttpConns HttpAnswers ByteStreams
open HttpReceive (Reached Receiving Sendable)
open HttpRoundTrip HttpDelivery

/-- What there is besides this library: the service, and the request of the client. -/
structure Setup extends Service where
  req : Msg

def client (x : Setup) : Party UInt8 Endpoint :=
  ⟨Client.act x.junk, Endpoint.write, Client.read x.junk⟩

def system (x : Setup) : System UInt8 Endpoint Endpoint := ⟨client x, server x.toService⟩

def start (x : Setup) : Link UInt8 Endpoint Endpoint :=
  ⟨Client.opened x.junk x.req, Server.opened x.junk, [], []⟩

/-- The bytes of the request and of the response to it, and what each of them is parsed as when it
comes at once. Both of them can be cut into chunks. -/
structure Exchanges (x : Setup) (q a : List UInt8) (request response : Msg) : Prop where
  written : ∃ req, beforeSendRequest x.req = .ok (req, q)
  answers : Answers x.toService q a request
  returned : Reached id .response a response [.afterRecvHeaders, .afterRecvMsg]
  sendable : Sendable .response a

variable {x : Setup} {q a r w c : List UInt8} {request response msg msg' : Msg} {e e' : Endpoint}
  {k n : ℕ}

/-- A client that has read `r` and written `w`, with at most `k` steps of its own left. -/
inductive ClientAt (x : Setup) (q a : List UInt8) (response : Msg) :
    ℕ → List UInt8 → List UInt8 → Endpoint → Prop
  | ready {e : Endpoint} (hwf : e.conn.tcp.Wf) (hstate : e.conn.tcp.state = .send)
    (hunsent : e.unsent = none) (hempty : e.conn.tcp.wbuf.content = []) (hreq : e.conn.req = x.req)
    (hres : e.conn.res = create .response []) (hlog : e.received = []) :
    ClientAt x q a response 2 [] [] e
  | writing {e : Endpoint} {w rest : List UInt8} (hwf : e.conn.tcp.Wf)
    (hstate : e.conn.tcp.state = .none) (hunsent : e.unsent = some rest) (hbytes : w ++ rest = q)
    (hres : e.conn.res = create .response []) (hlog : e.received = []) :
    ClientAt x q a response 1 [] w e
  | receiving {e : Endpoint} {r : List UInt8} (hwf : e.conn.tcp.Wf)
    (hstate : e.conn.tcp.state = .recv) (hunsent : e.unsent = none)
    (hmsg : Holds e.conn.tcp e.conn.res e.conn.res)
    (hres : Receiving id .response r e.conn.res) (hr : r ≠ a) (hlog : e.received = []) :
    ClientAt x q a response 0 r q e
  | done {e : Endpoint} (hstate : e.conn.tcp.state = .close) (hunsent : e.unsent = none)
    (hlog : e.received = [response]) : ClientAt x q a response 0 a q e

theorem clientAt_opened (x : Setup) (q a : List UInt8) (response : Msg) :
    ClientAt x q a response 2 [] [] (Client.opened x.junk x.req) := by
  refine .ready ((TcpConn.Conn.create_wf x.junk).nextState .send) rfl rfl ?_ rfl rfl rfl
  exact List.take_zero

theorem client_act (hx : Exchanges x q a request response) (h : ClientAt x q a response k r w e)
    (hact : Client.act x.junk e = some e') :
    ∃ k', k' < k ∧ ClientAt x q a response k' r w e' := by
  cases h with
  | ready hwf hstate hunsent hempty hreq hres hlog =>
    obtain ⟨req, hwritten⟩ := hx.written
    obtain ⟨wbuf, hwrite, hwf', hcontent⟩ := exists_sends x.junk hwf hempty q
    rw [Client.act, hunsent] at hact
    simp only [hstate, guard_true, hreq, hwritten, Except.toOption, Option.bind_eq_bind,
      Option.pure_def, Option.bind_some, hwrite] at hact
    obtain rfl := Option.some.inj hact
    exact ⟨1, by omega, .writing hwf' rfl rfl hcontent hres hlog⟩
  | @writing _ w rest hwf hstate hunsent hbytes hres hlog =>
    rw [Client.act, hunsent] at hact
    cases rest with
    | cons b rest => cases hact
    | nil =>
      obtain rfl := Option.some.inj hact
      rw [List.append_nil] at hbytes
      subst hbytes
      refine ⟨0, by omega, .receiving (afterSend_wf hwf .recv) ?_ rfl ?_ ?_ ?_ hlog⟩
      · exact TcpConn.Conn.state_nextState _ _ hstate
      · rw [hres]
        exact ⟨rfl, (content_afterSend _).1⟩
      · rw [hres]
        exact .empty
      · exact (HttpReceive.complete_ne_nil hx.sendable.complete).symm
  | receiving hwf hstate hunsent hmsg hres hr hlog =>
    rw [Client.act, hunsent] at hact
    simp [hstate, guard] at hact
  | done hstate hunsent hlog =>
    rw [Client.act, hunsent] at hact
    simp [hstate, guard] at hact

theorem client_write (h : ClientAt x q a response k r w e) (hwrite : e.write n = some (c, e')) :
    c ≠ [] ∧ ClientAt x q a response k r (w ++ c) e' := by
  cases h with
  | ready hwf hstate hunsent hempty hreq hres hlog =>
    rw [write_none hunsent] at hwrite
    cases hwrite
  | writing hwf hstate hunsent hbytes hres hlog =>
    obtain ⟨left, hc, rfl, rfl⟩ := write_spec hunsent hwrite
    rw [← List.append_assoc] at hbytes
    exact ⟨hc, .writing hwf hstate rfl hbytes hres hlog⟩
  | receiving hwf hstate hunsent hmsg hres hr hlog =>
    rw [write_none hunsent] at hwrite
    cases hwrite
  | done hstate hunsent hlog =>
    rw [write_none hunsent] at hwrite
    cases hwrite

/-- The client takes every chunk of the response. -/
theorem client_receive (hx : Exchanges x q a request response) (hwf : e.conn.tcp.Wf)
    (hstate : e.conn.tcp.state = .recv) (hunsent : e.unsent = none)
    (hmsg : Holds e.conn.tcp e.conn.res e.conn.res)
    (hres : Receiving id .response r e.conn.res) (hlog : e.received = []) (hc : c ≠ [])
    (hp : r ++ c <+: a) : ∃ e', Client.read x.junk e c = some e' ∧
      ClientAt x q a response 0 (r ++ c) q e' := by
  have hfinish : ∀ msg : Msg, (id msg).buf = msg.buf := fun _ => rfl
  by_cases hlast : r ++ c = a
  · obtain ⟨tcp, msg, events, hreceive, hwf', hstate', -, hparsed, hmem⟩ :=
      receive_last x.junk .close hfinish hx.sendable hwf hstate hmsg hres hc hlast
    obtain rfl := reached_unique hparsed hx.returned
    rw [Client.read, hunsent, clientReceive, hreceive]
    refine ⟨_, rfl, ?_⟩
    rw [hlast]
    refine .done hstate' hunsent ?_
    simp [Endpoint.raised, hmem, hlog]
  · obtain ⟨tcp, msg, events, hreceive, hwf', hstate', hmsg', -, hres', hno⟩ :=
      receive_part x.junk .close hfinish hx.sendable hwf hstate hmsg hres hc hp hlast
    rw [Client.read, hunsent, clientReceive, hreceive]
    refine ⟨_, rfl, .receiving hwf' hstate' hunsent hmsg' hres' hlast ?_⟩
    simp [Endpoint.raised, hno, hlog]

theorem client_read (hx : Exchanges x q a request response) (h : ClientAt x q a response k r w e)
    (hc : c ≠ []) (hp : r ++ c <+: a) (hread : Client.read x.junk e c = some e') :
    ClientAt x q a response k (r ++ c) w e' := by
  cases h with
  | ready hwf hstate hunsent hempty hreq hres hlog =>
    rw [Client.read, hunsent, clientReceive, receive] at hread
    simp [hstate, guard] at hread
  | writing hwf hstate hunsent hbytes hres hlog =>
    rw [Client.read, hunsent] at hread
    simp [guard] at hread
  | receiving hwf hstate hunsent hmsg hres hr hlog =>
    obtain ⟨e₁, hread₁, h₁⟩ := client_receive hx hwf hstate hunsent hmsg hres hlog hc hp
    obtain rfl := Option.some.inj (hread₁.symm.trans hread)
    exact h₁
  | done hstate hunsent hlog => exact absurd hp (not_part hc)

theorem follows_client (hx : Exchanges x q a request response) :
    Follows (client x) (· < ·) (fun _ => a) (fun _ => q) (ClientAt x q a response) where
  written h := by
    cases h with
    | ready => exact List.nil_prefix
    | writing hwf hstate hunsent hbytes hres hlog => exact ⟨_, hbytes⟩
    | receiving | done => exact List.prefix_refl _
  act h hact := client_act hx h hact
  write h hwrite := client_write h hwrite
  read h hc hp hread := client_read hx h hc hp hread

/-- A client goes on until it has written the request, and then waits for the response. -/
theorem client_turn (hx : Exchanges x q a request response)
    (h : ClientAt x q a response k r w e) :
    Moves (client x) e ∨ Waits (client x) a r e ∧ w = q ∧ (e.received = [] → r ≠ a) := by
  cases h with
  | ready hwf hstate hunsent hempty hreq hres hlog =>
    obtain ⟨req, hwritten⟩ := hx.written
    obtain ⟨wbuf, hwrite, hwf', hcontent⟩ := exists_sends x.junk hwf hempty q
    refine .inl (.inl ⟨{ e.sends wbuf with conn.req := req }, ?_⟩)
    change Client.act x.junk e = _
    rw [Client.act, hunsent]
    simp [hstate, hreq, hwritten, Except.toOption, hwrite]
  | @writing _ _ rest hwf hstate hunsent hbytes hres hlog =>
    by_cases hrest : rest = []
    · refine .inl (.inl ⟨{ e with
        conn.tcp := HttpKeepAlive.afterSend e.conn.tcp.nextRecv
        unsent := none }, ?_⟩)
      change Client.act x.junk e = _
      rw [Client.act, hunsent, hrest]
    · exact .inl (.inr (exists_write hunsent hrest))
  | receiving hwf hstate hunsent hmsg hres hr hlog =>
    refine .inr ⟨fun c hc hp => ?_, rfl, fun _ => hr⟩
    obtain ⟨e', hread, -⟩ := client_receive hx hwf hstate hunsent hmsg hres hlog hc hp
    exact ⟨e', hread⟩
  | done hstate hunsent hlog =>
    refine .inr ⟨fun c hc hp => absurd hp (not_part hc), rfl, fun hempty => ?_⟩
    rw [hlog] at hempty
    cases hempty

theorem client_received (h : ClientAt x q a response k r w e) : e.received = [] ∨
    e.received = [response] ∧ e.conn.tcp.state = .close ∧ r = a := by
  cases h with
  | ready hwf hstate hunsent hempty hreq hres hlog => exact .inl hlog
  | writing hwf hstate hunsent hbytes hres hlog => exact .inl hlog
  | receiving hwf hstate hunsent hmsg hres hr hlog => exact .inl hlog
  | done hstate hunsent hlog => exact .inr ⟨hlog, hstate, rfl⟩

/-- The invariant of an exchange, with the number of moves that are left at most. -/
theorem inv_start (hx : Exchanges x q a request response) :
    Inv a q (ClientAt x q a response) (ServerAt q a x.toService request [])
      (4 + 2 * (q.length + a.length)) (start x) := by
  refine ⟨2, [], [], 2, [], [], ⟨clientAt_opened x q a response,
    (ready_opened x.junk).serverAt hx.answers, rfl, rfl⟩, ?_⟩
  simp only [List.length_nil]
  omega

variable {l : Link UInt8 Endpoint Endpoint} {ms : List (Side × Move)}

/-- How far an exchange has come after some moves, of which there are at most `n`. The server gets
the request once and the client gets the response once, and only after that; before the client has
it and asks for the close, another move is possible. -/
structure Proceeds (x : Setup) (request response : Msg) (n : ℕ) (ms : List (Side × Move))
    (l : Link UInt8 Endpoint Endpoint) : Prop where
  bounded : ms.length ≤ n
  gotRequest : l.right.received = [] ∨ l.right.received = [request]
  gotResponse : l.left.received = [] ∨ l.left.received = [response] ∧ l.right.received = [request]
  progress : (∃ side m l', (system x).next l side m = some l') ∨
    l.left.received = [response] ∧ l.left.conn.tcp.state = .close

theorem proceeds_of_inv {m : ℕ} (hx : Exchanges x q a request response) (hlen : ms.length ≤ n)
    (h : Inv a q (ClientAt x q a response) (ServerAt q a x.toService request []) m l) :
    Proceeds x request response n ms l := by
  obtain ⟨k, r, w, k', r', w', ⟨hclient, hserver, hw, hw'⟩, -⟩ := h
  have ha := hx.answers.response_ne_nil
  have hout : w <+: q := (follows_client hx).written hclient
  have hout' : w' <+: a := serverAt_written hserver
  refine ⟨hlen, server_received hserver, ?_, ?_⟩
  · rcases client_received hclient with hlog | ⟨hlog, -, rfl⟩
    · exact .inl hlog
    · refine .inr ⟨hlog, server_received_of_written ha hserver ?_⟩
      exact hout'.eq_of_length_le (hw' ▸ (List.prefix_append _ _).length_le)
  · by_cases hdone : l.left.received = []
    · left
      have hturn := client_turn hx hclient
      apply exists_next hw hw' hout hout' (hturn.imp_right fun h => h.1)
        (.inr (server_waits hx.answers hserver))
      rcases hturn with hmoves | ⟨-, rfl, hr⟩
      · exact .inr (.inl hmoves)
      · by_cases hsame : r = w' ∧ r' = w
        · obtain ⟨rfl, rfl⟩ := hsame
          exact .inr (.inr (server_moves hx.answers hserver (hr hdone)))
        · exact .inl hsame
    · obtain ⟨hlog, hstate, -⟩ := (client_received hclient).resolve_left hdone
      exact .inr ⟨hlog, hstate⟩

/-- The invariant holds of all that both parties do. -/
theorem inv_run (hx : Exchanges x q a request response)
    (hrun : (system x).run (start x) ms = some l) :
    ms.length ≤ 4 + 2 * (q.length + a.length) ∧
      Inv a q (ClientAt x q a response) (ServerAt q a x.toService request [])
        (4 + 2 * (q.length + a.length) - ms.length) l :=
  (inv_start hx).run (produces_const q) (produces_const a) (follows_client hx)
    (follows_server hx.answers) hrun

/-- A request and its response are exchanged in any order of the moves, and with any chunks. -/
theorem proceeds (hx : Exchanges x q a request response)
    (hrun : (system x).run (start x) ms = some l) :
    Proceeds x request response (4 + 2 * (q.length + a.length)) ms l := by
  obtain ⟨hlen, hinv⟩ := inv_run hx hrun
  exact proceeds_of_inv hx hlen hinv

variable {mq ma : Message} {qs as : List Call}

/-- A composed request and the composed response to it are exchanged as they are. -/
theorem exchanges_of_composed (hq : Travels mq qs) (ha : Travels ma as)
    (hqtype : mq.start.type = .request) (hatype : ma.start.type = .response)
    (hreq : x.req = compose mq qs)
    (hrespond : ∀ request, Carries request mq qs →
      finalResponse x.fileServer request (x.respond request) = compose ma as) :
    ∃ request response, Exchanges x (bytes mq qs) (bytes ma as) request response ∧
      Carries request mq qs ∧ Carries response ma as := by
  obtain ⟨request, hanswers, hrequest⟩ := answers_of_composed hq ha hqtype hrespond
  obtain ⟨response, hreturned, hresponse⟩ := ha.carried id keepsMessage_id
  have habytes := ha.sendable
  rw [hatype] at hreturned habytes
  refine ⟨request, response, ⟨⟨compose mq qs, ?_⟩, hanswers, hreturned, habytes⟩, hrequest,
    hresponse⟩
  rw [beforeSendRequest, hreq, if_pos hq.starts, hq.written]
  rfl

/-- Whatever the order of the moves and the chunks, the server gets the request that the client has
composed, and the client gets the response that the server has composed to it. -/
theorem composed_exchange (hq : Travels mq qs) (ha : Travels ma as)
    (hqtype : mq.start.type = .request) (hatype : ma.start.type = .response)
    (hreq : x.req = compose mq qs)
    (hrespond : ∀ request, Carries request mq qs →
      finalResponse x.fileServer request (x.respond request) = compose ma as) :
    ∃ request response, Carries request mq qs ∧ Carries response ma as ∧
      ∀ ms l, (system x).run (start x) ms = some l →
        Proceeds x request response (4 + 2 * ((bytes mq qs).length + (bytes ma as).length))
          ms l := by
  obtain ⟨request, response, hx, hrequest, hresponse⟩ :=
    exchanges_of_composed hq ha hqtype hatype hreq hrespond
  refine ⟨request, response, hrequest, hresponse, fun ms l hrun => ?_⟩
  obtain ⟨hlen, hinv⟩ := inv_run hx hrun
  exact proceeds_of_inv hx hlen hinv

def greets : Setup where
  junk _ := 0
  reqHandlers := 0
  req := compose accepted (contentFirst accepted)
  respond _ := compose answer (contentFirst answer)
  fileServer := none

theorem composed_exchange_greets : ∃ request response,
    Carries request accepted (contentFirst accepted) ∧
      Carries response answer (contentFirst answer) ∧
      ∀ ms l, (system greets).run (start greets) ms = some l →
        Proceeds greets request response (4 + 2 * ((bytes accepted (contentFirst accepted)).length +
          (bytes answer (contentFirst answer)).length)) ms l :=
  composed_exchange deliverable_accepted.travels deliverable_answer.travels rfl rfl rfl
    fun _ _ => rfl

/-- The client writes its request in two pieces, of which the server reads the first in part. -/
def greetMoves : List (Side × Move) :=
  [(.left, .act), (.left, .write 50), (.right, .read 9), (.left, .write 32), (.left, .act),
    (.right, .read 73), (.right, .act), (.right, .write 60), (.left, .read 30), (.right, .write 6),
    (.right, .act), (.left, .read 36)]

theorem proceeds_greets : ∃ request response l,
    (system greets).run (start greets) greetMoves = some l ∧
      Proceeds greets request response (4 + 2 * ((bytes accepted (contentFirst accepted)).length +
        (bytes answer (contentFirst answer)).length)) greetMoves l := by
  have hrun : ((system greets).run (start greets) greetMoves).isSome = true := by decide +kernel
  obtain ⟨l, hrun⟩ := Option.isSome_iff_exists.mp hrun
  obtain ⟨request, response, hx, -, -⟩ :=
    @exchanges_of_composed greets _ _ _ _ deliverable_accepted.travels deliverable_answer.travels
      rfl rfl rfl fun _ _ => rfl
  exact ⟨request, response, l, hrun, proceeds hx hrun⟩

end Libuo.HttpExchange
