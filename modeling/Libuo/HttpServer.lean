import Libuo.HttpMsg

/-!
# HTTP servers

What a server does with the bytes it receives: each chunk is appended to the receive
buffer, and the request is parsed as far as it goes.
-/

namespace Libuo.HttpServer
open HttpMsg

/-- What the receive step has done: another receive has been requested, or the functions of an
event handler are put in front of the callback. -/
inductive Event where
  | nextRecv | afterRecvHeaders | afterRecvMsg
  deriving DecidableEq

variable (reqHandlers : ℕ)

/-- The request is fully parsed. The address of the request handlers is stored in the union
`temp`, in the place of the parsing offset. -/
def fullyParsed (req : Msg) : Msg := { req with parsingOffset := reqHandlers }

/-- The second part of `tcp_server_evt_handler_after_recv`, when there is no body yet. -/
def afterRecvHeaders (req : Msg) : Except Fault (Msg × List Event) :=
  (parseHeaders req).map fun r =>
    if r.2 then
      let b := parseBody r.1
      if b.2 then (fullyParsed reqHandlers b.1, [.afterRecvHeaders, .afterRecvMsg])
      else (b.1, [.nextRecv, .afterRecvHeaders])
    else (r.1, [.nextRecv])

def afterRecvStartLine (req : Msg) : Except Fault (Msg × List Event) :=
  if req.hasHeaders then
    let b := parseBody req
    if b.2 then .ok (fullyParsed reqHandlers b.1, [.afterRecvMsg])
    else afterRecvHeaders reqHandlers b.1
  else afterRecvHeaders reqHandlers req

def afterRecv (req : Msg) : Except Fault (Msg × List Event) :=
  if req.startLine then afterRecvStartLine reqHandlers req
  else (parseStartLine req).bind fun r =>
    if r.2 then afterRecvStartLine reqHandlers r.1 else .ok (r.1, [.nextRecv])

/-- One receive: the chunk is behind the bytes that have been received. -/
def receive (req : Msg) (chunk : List UInt8) : Except Fault (Msg × List Event) :=
  afterRecv reqHandlers { req with buf := req.buf ++ chunk }

/-- One receive after the other, with what each of them has done. -/
def receiveAll : Msg → List (List UInt8) → Except Fault (Msg × List (List Event))
  | req, [] => .ok (req, [])
  | req, chunk :: chunks =>
    (receive reqHandlers req chunk).bind fun r =>
      (receiveAll r.1 chunks).map fun s => (s.1, r.2 :: s.2)

variable {reqHandlers} {req req' : Msg} {chunk : List UInt8} {chunks chunks' : List (List UInt8)}
  {events : List Event} {rest : List (List Event)}

theorem receiveAll_cons (h : receive reqHandlers req chunk = .ok (req', events)) :
    receiveAll reqHandlers req (chunk :: chunks) =
      (receiveAll reqHandlers req' chunks).map fun s => (s.1, events :: s.2) := by
  rw [receiveAll, h]
  rfl

theorem receiveAll_append (h : receiveAll reqHandlers req chunks = .ok (req', rest)) :
    receiveAll reqHandlers req (chunks ++ chunks') =
      (receiveAll reqHandlers req' chunks').map fun s => (s.1, rest ++ s.2) := by
  induction chunks generalizing req rest with
  | nil =>
    obtain ⟨rfl, rfl⟩ := Prod.mk.inj (Except.ok.inj h)
    rw [List.nil_append]
    cases receiveAll reqHandlers req chunks' <;> rfl
  | cons chunk chunks ih =>
    cases hr : receive reqHandlers req chunk with
    | error e =>
      rw [receiveAll, hr] at h
      exact nomatch h
    | ok r =>
      rw [receiveAll_cons hr] at h
      cases hs : receiveAll reqHandlers r.1 chunks with
      | error e =>
        rw [hs] at h
        exact nomatch h
      | ok s =>
        rw [hs] at h
        obtain ⟨rfl, rfl⟩ := Prod.mk.inj (Except.ok.inj h)
        rw [List.cons_append, receiveAll_cons hr, ih hs]
        cases receiveAll reqHandlers s.1 chunks' <;> rfl

end Libuo.HttpServer
