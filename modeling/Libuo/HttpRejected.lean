import Libuo.HttpChunks
import Libuo.HttpParseSafety

/-!
# Requests that have been rejected

A parsing function that rejects a request sets a flag, which the receive step does not read. A
start line that has been rejected is rejected again. Behind headers that have been rejected, the
next empty line makes the server read more headers, and with these the request can be accepted.
-/

namespace Libuo.HttpRejected
open CStrings CText HttpMsg HttpHeaders HttpServer HttpParseSafety
open HttpChunks (receiveAll_cons_ok)

variable {reqHandlers cr i : ℕ} {c : List UInt8} {chunks before after : List (List UInt8)}
  {msg msg' req req' : Msg} {b : Bool} {events : List Event} {all : List (List Event)}

/-- The body is rejected for the headers, and would be with any further bytes. -/
def Rejects (msg : Msg) : Prop :=
  match getHeader msg (text "content-length") with
  | some contentLength => strtoull contentLength = none
  | none => needsNoBody msg = false

theorem parseBody_of_rejects (h : Rejects msg) : parseBody msg = invalid msg := by
  rw [Rejects] at h
  rw [parseBody]
  cases hlength : getHeader msg (text "content-length") with
  | none =>
    rw [hlength] at h
    simp only [show needsNoBody msg = false from h, Bool.false_eq_true, if_false]
  | some contentLength =>
    rw [hlength] at h
    simp only [show strtoull contentLength = none from h]

/-- What the body leaves as it is. -/
structure SameHeaders (msg msg' : Msg) : Prop where
  type : msg'.type = msg.type
  method : msg'.method = msg.method
  status : msg'.status = msg.status
  headers : msg'.headers = msg.headers
  startLine : msg'.startLine = msg.startLine
  hasHeaders : msg'.hasHeaders = msg.hasHeaders

theorem SameHeaders.trans {msg'' : Msg} (h : SameHeaders msg msg') (h' : SameHeaders msg' msg'') :
    SameHeaders msg msg'' :=
  ⟨h'.type.trans h.type, h'.method.trans h.method, h'.status.trans h.status,
    h'.headers.trans h.headers, h'.startLine.trans h.startLine, h'.hasHeaders.trans h.hasHeaders⟩

theorem SameHeaders.rejects (h : SameHeaders msg msg') : Rejects msg' ↔ Rejects msg := by
  rw [Rejects, Rejects, getHeader, getHeader, needsNoBody, needsNoBody, h.headers, h.type,
    h.method, h.status]

theorem parseBody_valid (h : ¬ Rejects msg) (hparse : parseBody msg = (msg', b)) :
    SameHeaders msg msg' ∧ msg'.isInvalid = msg.isInvalid ∧ (b = false → msg' = msg) := by
  rw [Rejects] at h
  rw [parseBody] at hparse
  split at hparse
  · rename_i contentLength hlength
    rw [hlength] at h
    split at hparse
    · exact absurd ‹_› h
    · split at hparse <;>
      · obtain ⟨rfl, rfl⟩ := Prod.mk.inj hparse
        exact ⟨⟨rfl, rfl, rfl, rfl, rfl, rfl⟩, rfl, by simp⟩
  · rename_i hlength
    rw [hlength] at h
    simp only [Bool.not_eq_false] at h
    rw [if_pos h] at hparse
    obtain ⟨rfl, rfl⟩ := Prod.mk.inj hparse
    exact ⟨⟨rfl, rfl, rfl, rfl, rfl, rfl⟩, rfl, by simp⟩

theorem infix_of_headersEnd (h : HeadersEnd msg i) :
    blankLine <:+: cstr (msg.buf.drop (msg.parsingOffset - 2)) :=
  ((strstr_eq_some (by decide)).mp h).1.isInfix.trans (List.drop_suffix _ _).isInfix

/-- Headers end with the end of a line, which is read again in front of further headers. -/
theorem crlf_prefix_of_headersEnd (h : HeadersEnd msg i) :
    crlf <+: msg.buf.drop (msg.parsingOffset - 2 + i + 4 - 2) := by
  obtain ⟨t, ht⟩ := ((strstr_eq_some (by decide)).mp h).1
  obtain ⟨r, hr⟩ : cstr (msg.buf.drop (msg.parsingOffset - 2)) <+:
      msg.buf.drop (msg.parsingOffset - 2) := List.takeWhile_prefix _
  have hlen : i + 4 ≤ (cstr (msg.buf.drop (msg.parsingOffset - 2))).length := by
    have := congrArg List.length ht
    simp only [List.length_append, List.length_drop, show blankLine.length = 4 from rfl] at this
    omega
  have hdrop : msg.buf.drop (msg.parsingOffset - 2 + (i + 2)) =
      (cstr (msg.buf.drop (msg.parsingOffset - 2))).drop (i + 2) ++ r := by
    rw [← List.drop_drop]
    conv_lhs => rw [← hr]
    exact List.drop_append_of_le_length (by omega)
  have hrest : (cstr (msg.buf.drop (msg.parsingOffset - 2))).drop (i + 2) = crlf ++ t := by
    rw [← List.drop_drop, ← ht, blankLine, List.append_assoc]
    rfl
  rw [show msg.parsingOffset - 2 + i + 4 - 2 = msg.parsingOffset - 2 + (i + 2) by omega, hdrop,
    hrest, List.append_assoc]
  exact List.prefix_append _ _

/-- More headers are read, and then the body, or there are none. -/
theorem afterRecvHeaders_found (h : afterRecvHeaders reqHandlers req = .ok (req', events)) :
    (parseHeaders req = .ok (req, false) ∧ req' = req ∧ events = [.nextRecv]) ∨
      ∃ headed, parseHeaders req = .ok (headed, true) ∧
        (parseBody headed = (req', false) ∧ events = [.nextRecv, .afterRecvHeaders] ∨
          ∃ bodied, parseBody headed = (bodied, true) ∧ req' = fullyParsed reqHandlers bodied ∧
            events = [.afterRecvHeaders, .afterRecvMsg]) := by
  rw [afterRecvHeaders] at h
  cases hparse : parseHeaders req with
  | error e =>
    rw [hparse] at h
    cases h
  | ok found =>
    obtain ⟨headed, b⟩ := found
    rw [hparse] at h
    cases b with
    | false =>
      obtain ⟨rfl, rfl⟩ := Prod.mk.inj (Except.ok.inj h)
      obtain ⟨-, ⟨rfl, -⟩ | ⟨_, _, -, hb, -⟩⟩ := parseHeaders_cases hparse
      · exact .inl ⟨rfl, rfl, rfl⟩
      · cases hb
    | true =>
      refine .inr ⟨headed, rfl, ?_⟩
      replace h := Except.ok.inj h
      cases hbody : parseBody headed with
      | mk bodied b =>
        simp only [hbody] at h
        cases b with
        | false =>
          obtain ⟨rfl, rfl⟩ := Prod.mk.inj h
          exact .inl ⟨rfl, rfl⟩
        | true =>
          obtain ⟨rfl, rfl⟩ := Prod.mk.inj h
          exact .inr ⟨bodied, rfl, rfl, rfl⟩

/-- With a start line, the body is tried first if there are headers. -/
theorem afterRecvStartLine_cases
    (h : afterRecvStartLine reqHandlers req = .ok (req', events)) :
    (req.hasHeaders = false ∧ afterRecvHeaders reqHandlers req = .ok (req', events)) ∨
      req.hasHeaders = true ∧
        ((∃ bodied, parseBody req = (bodied, true) ∧ req' = fullyParsed reqHandlers bodied ∧
            events = [.afterRecvMsg]) ∨
          ∃ tried, parseBody req = (tried, false) ∧
            afterRecvHeaders reqHandlers tried = .ok (req', events)) := by
  rw [afterRecvStartLine] at h
  cases hheaders : req.hasHeaders with
  | false =>
    rw [hheaders] at h
    exact .inl ⟨rfl, h⟩
  | true =>
    refine .inr ⟨rfl, ?_⟩
    rw [hheaders, if_pos rfl] at h
    cases hbody : parseBody req with
    | mk tried b =>
      simp only [hbody] at h
      cases b with
      | false => exact .inr ⟨tried, rfl, h⟩
      | true =>
        obtain ⟨rfl, rfl⟩ := Prod.mk.inj (Except.ok.inj h)
        exact .inl ⟨tried, rfl, rfl, rfl⟩

/-- The request with the next bytes. -/
def appended (req : Msg) (c : List UInt8) : Msg := { req with buf := req.buf ++ c }

theorem receive_cases (h : receive reqHandlers req c = .ok (req', events)) :
    (req.startLine = true ∧ afterRecvStartLine reqHandlers (appended req c) = .ok (req', events)) ∨
      req.startLine = false ∧
        (parseStartLine (appended req c) = .ok (req', false) ∧ events = [.nextRecv] ∨
          ∃ started, parseStartLine (appended req c) = .ok (started, true) ∧
            afterRecvStartLine reqHandlers started = .ok (req', events)) := by
  change afterRecv reqHandlers (appended req c) = _ at h
  rw [afterRecv] at h
  cases hstart : req.startLine with
  | true =>
    rw [if_pos (show (appended req c).startLine = true from hstart)] at h
    exact .inl ⟨rfl, h⟩
  | false =>
    have hno : ¬ (appended req c).startLine = true := by
      change ¬ req.startLine = true
      simp [hstart]
    rw [if_neg hno] at h
    refine .inr ⟨rfl, ?_⟩
    cases hparse : parseStartLine (appended req c) with
    | error e =>
      rw [hparse] at h
      cases h
    | ok found =>
      obtain ⟨started, b⟩ := found
      rw [hparse] at h
      cases b with
      | false =>
        obtain ⟨rfl, rfl⟩ := Prod.mk.inj (Except.ok.inj h)
        exact .inl ⟨rfl, rfl⟩
      | true => exact .inr ⟨started, rfl, h⟩

/-- A request that is not rejected. -/
structure Valid (req : Msg) : Prop where
  type : req.type = .request
  flag : req.isInvalid = false
  headers : req.hasHeaders = true → req.startLine = true ∧ ¬ Rejects req

/-- The start line has been rejected. -/
structure LineRejected (req : Msg) : Prop where
  flag : req.isInvalid = true
  type : req.type = .request
  startLine : req.startLine = false
  rejected : ∃ cr, LineEnd req cr ∧
    ∀ msg, (parseRequestLine msg (req.buf.take (cr + 2)) cr).2 = false

/-- The headers have been rejected, and the bytes behind them follow a line end. -/
structure HeadersRejected (req : Msg) : Prop where
  flag : req.isInvalid = true
  startLine : req.startLine = true
  hasHeaders : req.hasHeaders = true
  rejects : Rejects req
  offset : 2 ≤ req.parsingOffset
  lineEnd : crlf <+: req.buf.drop (req.parsingOffset - 2)

def Rejected (req : Msg) : Prop := LineRejected req ∨ HeadersRejected req

/-- A request line is rejected whatever the message has been before. -/
theorem parseRequestLine_congr (msg msg' : Msg) (line : List UInt8) (cr : ℕ) :
    (parseRequestLine msg line cr).2 = (parseRequestLine msg' line cr).2 := by
  rw [parseRequestLine, parseRequestLine]
  cases memchr line (chr ' ') line.length with
  | none => rfl
  | some sp1 =>
    simp only
    cases strrchr (cstr (line.drop (sp1 + 1))) (chr ' ') with
    | none => rfl
    | some sp2 =>
      simp only
      cases CText.strchr ((cstr (line.drop (sp1 + 1))).drop (sp2 + 1)) (chr '\r') with
      | none => rfl
      | some n =>
        simp only
        cases verOf ((0 :: (cstr (line.drop (sp1 + 1))).drop (sp2 + 1)).getD n 0) <;> rfl

theorem parseStartLine_request (htype : msg.type = .request) (hcr : LineEnd msg cr) :
    parseStartLine msg = .ok (parseRequestLine msg (msg.buf.take (cr + 2)) cr) := by
  have hne : msg.buf ≠ [] := List.ne_nil_of_length_pos (Nat.lt_of_lt_of_le (by omega) hcr.lt)
  rw [parseStartLine, if_neg hne, hcr.1]
  simp only [if_pos hcr.2, htype]

theorem lineEnd_appended (h : LineEnd msg cr) (c : List UInt8) : LineEnd (appended msg c) cr := by
  have hlen := h.lt
  obtain ⟨hlt, hget, hbefore⟩ := List.idxOf?_eq_some_iff.mp h.1
  have hbuf : (appended msg c).buf = msg.buf ++ c := rfl
  rw [LineEnd, hbuf, List.getElem?_append_left hlen, memchr, List.idxOf?_eq_some_iff]
  refine ⟨⟨by simp; omega, ?_, fun j hj => ?_⟩, h.2⟩
  · rw [List.getElem_take, List.getElem_append_left (by omega)]
    simpa using hget
  · rw [List.getElem_take, List.getElem_append_left (by omega)]
    simpa using hbefore j hj

theorem valid_create : Valid (create .request []) := ⟨rfl, rfl, nofun⟩

/-- The headers that are found behind a start line are accepted or rejected. -/
theorem Valid.afterRecvHeaders (h : Valid msg) (hstart : msg.startLine = true)
    (hr : afterRecvHeaders reqHandlers msg = .ok (req', events)) :
    Valid req' ∨ Rejected req' ∧ .afterRecvMsg ∉ events := by
  obtain ⟨-, rfl, -⟩ | ⟨headed, hparse, hbody⟩ := afterRecvHeaders_found hr
  · exact .inl h
  · obtain ⟨hoffset, ⟨-, hb, -⟩ | ⟨i, headers, hi, -, hheaded⟩⟩ := parseHeaders_cases hparse
    · cases hb
    · have htype : headed.type = .request := hheaded ▸ h.type
      have hflag : headed.isInvalid = false := hheaded ▸ h.flag
      have hstart' : headed.startLine = true := hheaded ▸ hstart
      have hheaders : headed.hasHeaders = true := hheaded ▸ rfl
      by_cases hrejects : Rejects headed
      · rw [parseBody_of_rejects hrejects] at hbody
        obtain ⟨hreq, rfl⟩ | ⟨bodied, hb, -⟩ := hbody
        · obtain rfl := (Prod.mk.inj hreq).1
          refine .inr ⟨.inr ⟨rfl, hstart', hheaders, hrejects, ?_, ?_⟩, by simp⟩
          · change 2 ≤ headed.parsingOffset
            rw [hheaded]
            exact Nat.le_add_left_of_le (by decide)
          · change crlf <+: headed.buf.drop (headed.parsingOffset - 2)
            rw [hheaded]
            exact crlf_prefix_of_headersEnd hi
        · cases hb
      · left
        obtain ⟨hreq, -⟩ | ⟨bodied, hreq, rfl, -⟩ := hbody
        · obtain ⟨hsame, hflag', -⟩ := parseBody_valid hrejects hreq
          exact ⟨hsame.type.trans htype, hflag'.trans hflag, fun _ =>
            ⟨hsame.startLine.trans hstart', mt hsame.rejects.mp hrejects⟩⟩
        · obtain ⟨hsame, hflag', -⟩ := parseBody_valid hrejects hreq
          exact ⟨hsame.type.trans htype, hflag'.trans hflag, fun _ =>
            ⟨hsame.startLine.trans hstart', mt hsame.rejects.mp hrejects⟩⟩

theorem Valid.afterRecvStartLine (h : Valid msg) (hstart : msg.startLine = true)
    (hr : afterRecvStartLine reqHandlers msg = .ok (req', events)) :
    Valid req' ∨ Rejected req' ∧ .afterRecvMsg ∉ events := by
  obtain ⟨-, hheaders⟩ | ⟨hheaders, hbody⟩ := afterRecvStartLine_cases hr
  · exact h.afterRecvHeaders hstart hheaders
  · have hrejects := (h.headers hheaders).2
    obtain ⟨bodied, hparse, rfl, -⟩ | ⟨tried, hparse, hmore⟩ := hbody
    · obtain ⟨hsame, hflag, -⟩ := parseBody_valid hrejects hparse
      exact .inl ⟨hsame.type.trans h.type, hflag.trans h.flag, fun _ =>
        ⟨hsame.startLine.trans hstart, mt hsame.rejects.mp hrejects⟩⟩
    · obtain rfl := (parseBody_valid hrejects hparse).2.2 rfl
      exact h.afterRecvHeaders hstart hmore

/-- A receive leaves a request valid or rejects it, and does not raise a rejected one. -/
theorem Valid.receive (h : Valid req) (hr : receive reqHandlers req c = .ok (req', events)) :
    Valid req' ∨ Rejected req' ∧ .afterRecvMsg ∉ events := by
  have happended : Valid (appended req c) := ⟨h.type, h.flag, h.headers⟩
  obtain ⟨hstart, hmore⟩ | ⟨hstart, hparse⟩ := receive_cases hr
  · exact happended.afterRecvStartLine hstart hmore
  · have hheaders : req.hasHeaders = false := by
      by_contra hheaders
      rw [(h.headers (by simpa using hheaders)).1] at hstart
      cases hstart
    obtain ⟨hparse, rfl⟩ | ⟨started, hparse, hmore⟩ := hparse
    · obtain ⟨rfl, -, -⟩ | ⟨cr, hcr, hline⟩ := parseStartLine_cases hparse
      · exact .inl happended
      · obtain ⟨hflag, hno⟩ := hline.rejected rfl
        refine .inr ⟨.inl ⟨hflag, hline.kept.type.trans h.type, hno.trans hstart, cr, ?_,
          fun msg => ?_⟩, by simp⟩
        · rw [LineEnd, hline.kept.buf]
          exact hcr
        · rw [hline.kept.buf]
          rw [parseStartLine_request happended.type hcr] at hparse
          rw [parseRequestLine_congr msg (appended req c), Except.ok.inj hparse]
    · obtain ⟨-, hb, -⟩ | ⟨cr, hcr, hline⟩ := parseStartLine_cases hparse
      · cases hb
      · obtain ⟨hflag, hstart', -⟩ := hline.parsed rfl
        refine Valid.afterRecvStartLine ⟨hline.kept.type.trans h.type, hflag.trans h.flag, ?_⟩
          hstart' hmore
        intro hyes
        have hno : started.hasHeaders = false := hline.kept.hasHeaders.trans hheaders
        rw [hno] at hyes
        cases hyes

theorem parseBody_flag (h : msg.isInvalid = true) (hparse : parseBody msg = (msg', b)) :
    msg'.isInvalid = true := by
  by_cases hrejects : Rejects msg
  · rw [parseBody_of_rejects hrejects] at hparse
    exact (Prod.mk.inj hparse).1 ▸ rfl
  · exact (parseBody_valid hrejects hparse).2.1.trans h

theorem afterRecvHeaders_flag (h : msg.isInvalid = true)
    (hr : afterRecvHeaders reqHandlers msg = .ok (req', events)) : req'.isInvalid = true := by
  obtain ⟨-, rfl, -⟩ | ⟨headed, hparse, hbody⟩ := afterRecvHeaders_found hr
  · exact h
  · have hheaded : headed.isInvalid = true := by
      obtain ⟨-, ⟨-, hb, -⟩ | ⟨i, headers, -, -, rfl⟩⟩ := parseHeaders_cases hparse
      · cases hb
      · exact h
    obtain ⟨hreq, -⟩ | ⟨bodied, hreq, rfl, -⟩ := hbody
    · exact parseBody_flag hheaded hreq
    · have hbodied := parseBody_flag hheaded hreq
      exact hbodied

theorem afterRecvStartLine_flag (h : msg.isInvalid = true)
    (hr : afterRecvStartLine reqHandlers msg = .ok (req', events)) : req'.isInvalid = true := by
  obtain ⟨-, hheaders⟩ | ⟨-, ⟨bodied, hparse, rfl, -⟩ | ⟨tried, hparse, hmore⟩⟩ :=
    afterRecvStartLine_cases hr
  · exact afterRecvHeaders_flag h hheaders
  · have hbodied := parseBody_flag h hparse
    exact hbodied
  · exact afterRecvHeaders_flag (parseBody_flag h hparse) hmore

theorem receive_flag (h : req.isInvalid = true)
    (hr : receive reqHandlers req c = .ok (req', events)) : req'.isInvalid = true := by
  have happended : (appended req c).isInvalid = true := h
  obtain ⟨-, hmore⟩ | ⟨-, hparse⟩ := receive_cases hr
  · exact afterRecvStartLine_flag happended hmore
  · obtain ⟨hparse, -⟩ | ⟨started, hparse, hmore⟩ := hparse
    · obtain ⟨rfl, -, -⟩ | ⟨cr, -, hline⟩ := parseStartLine_cases hparse
      · exact h
      · exact (hline.rejected rfl).1
    · obtain ⟨rfl, hb, -⟩ | ⟨cr, -, hline⟩ := parseStartLine_cases hparse
      · cases hb
      · exact afterRecvStartLine_flag ((hline.parsed rfl).1.trans h) hmore

theorem receiveAll_flag (h : req.isInvalid = true)
    (hr : receiveAll reqHandlers req chunks = .ok (req', all)) : req'.isInvalid = true := by
  induction chunks generalizing req all with
  | nil => exact (Prod.mk.inj (Except.ok.inj hr)).1 ▸ h
  | cons c chunks ih =>
    obtain ⟨req₁, events, rest, hreceive, hrest, -⟩ := receiveAll_cons_ok hr
    exact ih (receive_flag h hreceive) hrest

theorem Rejected.flag (h : Rejected req) : req.isInvalid = true :=
  h.elim LineRejected.flag HeadersRejected.flag

theorem Valid.receiveAll (h : Valid req)
    (hr : receiveAll reqHandlers req chunks = .ok (req', all)) (hflag : req'.isInvalid = false) :
    Valid req' := by
  induction chunks generalizing req all with
  | nil => exact (Prod.mk.inj (Except.ok.inj hr)).1 ▸ h
  | cons c chunks ih =>
    obtain ⟨req₁, events, rest, hreceive, hrest, -⟩ := receiveAll_cons_ok hr
    obtain hvalid | ⟨hrejected, -⟩ := h.receive hreceive
    · exact ih hvalid hrest
    · rw [receiveAll_flag hrejected.flag hrest] at hflag
      cases hflag

/-- No empty line follows the headers before a NUL. -/
def NoMoreHeaders (req : Msg) (rest : List UInt8) : Prop :=
  req.startLine = true → ¬ blankLine <:+: cstr ((req.buf ++ rest).drop (req.parsingOffset - 2))

instance (req : Msg) (rest : List UInt8) : Decidable (NoMoreHeaders req rest) :=
  inferInstanceAs (Decidable (_ → _))

theorem NoMoreHeaders.of_append {s t : List UInt8} (h : NoMoreHeaders req (s ++ t)) :
    NoMoreHeaders req s := by
  intro hstart hs
  have hdrop : (req.buf ++ (s ++ t)).drop (req.parsingOffset - 2) =
      (req.buf ++ s).drop (req.parsingOffset - 2) ++
        t.drop (req.parsingOffset - 2 - (req.buf ++ s).length) := by
    rw [← List.append_assoc, List.drop_append]
  have hnone := h hstart
  rw [hdrop] at hnone
  exact hnone (hs.trans <| List.IsPrefix.isInfix <| cstr_prefix _ _)

theorem LineRejected.receive (h : LineRejected req)
    (hr : receive reqHandlers req c = .ok (req', events)) :
    LineRejected req' ∧ events = [.nextRecv] := by
  obtain ⟨cr, hcr, hrejected⟩ := h.rejected
  have hcr' := lineEnd_appended hcr c
  have htake : (appended req c).buf.take (cr + 2) = req.buf.take (cr + 2) :=
    List.take_append_of_le_length hcr.lt
  have hparse := @parseStartLine_request _ (appended req c) h.type hcr'
  rw [htake] at hparse
  obtain ⟨hstart, -⟩ | ⟨-, ⟨hfalse, rfl⟩ | ⟨started, htrue, -⟩⟩ := receive_cases hr
  · rw [h.startLine] at hstart
    cases hstart
  · obtain ⟨-, -, hnone⟩ | ⟨_, -, hline⟩ := parseStartLine_cases hfalse
    · exact absurd hcr' (hnone cr)
    · obtain ⟨hflag, hno⟩ := hline.rejected rfl
      refine ⟨⟨hflag, hline.kept.type.trans h.type, hno.trans h.startLine, cr, ?_, ?_⟩, rfl⟩
      · rw [LineEnd, hline.kept.buf]
        exact hcr'
      · rw [hline.kept.buf, htake]
        exact hrejected
  · have hfalse := hrejected (appended req c)
    rw [hparse] at htrue
    rw [Except.ok.inj htrue] at hfalse
    cases hfalse

/-- Without another empty line, the headers are rejected again. -/
theorem HeadersRejected.receive (h : HeadersRejected req) (hend : NoMoreHeaders req c)
    (hr : receive reqHandlers req c = .ok (req', events)) :
    req' = (invalid (appended req c)).1 ∧ events = [.nextRecv] := by
  have hrejects : Rejects (appended req c) := h.rejects
  have hmore : afterRecvHeaders reqHandlers (invalid (appended req c)).1 = .ok (req', events) := by
    obtain ⟨-, hstart⟩ | ⟨hstart, -⟩ := receive_cases hr
    · obtain ⟨hno, -⟩ | ⟨-, ⟨bodied, hparse, -⟩ | ⟨tried, hparse, hmore⟩⟩ :=
        afterRecvStartLine_cases hstart
      · rw [show (appended req c).hasHeaders = true from h.hasHeaders] at hno
        cases hno
      · rw [parseBody_of_rejects hrejects] at hparse
        cases hparse
      · rw [parseBody_of_rejects hrejects] at hparse
        rwa [← (Prod.mk.inj hparse).1] at hmore
    · rw [h.startLine] at hstart
      cases hstart
  obtain ⟨-, hreq, hevents⟩ | ⟨headed, hparse, -⟩ := afterRecvHeaders_found hmore
  · exact ⟨hreq, hevents⟩
  · obtain ⟨-, ⟨-, hb, -⟩ | ⟨i, headers, hi, -, -⟩⟩ := parseHeaders_cases hparse
    · cases hb
    · exact absurd (infix_of_headersEnd hi) (hend h.startLine)

theorem HeadersRejected.appended (h : HeadersRejected req) (c : List UInt8) :
    HeadersRejected (invalid (HttpRejected.appended req c)).1 where
  flag := rfl
  startLine := h.startLine
  hasHeaders := h.hasHeaders
  rejects := h.rejects
  offset := h.offset
  lineEnd := by
    change crlf <+: (req.buf ++ c).drop (req.parsingOffset - 2)
    rw [List.drop_append]
    exact h.lineEnd.trans (List.prefix_append _ _)

/-- A request that is rejected is not raised before there are more headers. -/
theorem Rejected.receiveAll (h : Rejected req) (hend : NoMoreHeaders req chunks.flatten)
    (hr : receiveAll reqHandlers req chunks = .ok (req', all)) :
    .afterRecvMsg ∉ all.flatten := by
  induction chunks generalizing req all with
  | nil => simp [← (Prod.mk.inj (Except.ok.inj hr)).2]
  | cons c chunks ih =>
    obtain ⟨req₁, events, rest, hreceive, hrest, rfl⟩ := receiveAll_cons_ok hr
    rw [List.flatten_cons] at hend
    have hstep : Rejected req₁ ∧ NoMoreHeaders req₁ chunks.flatten ∧ events = [.nextRecv] := by
      cases h with
      | inl h =>
        obtain ⟨h', hevents⟩ := h.receive hreceive
        refine ⟨.inl h', fun hstart => ?_, hevents⟩
        rw [h'.startLine] at hstart
        cases hstart
      | inr h =>
        obtain ⟨rfl, hevents⟩ := h.receive hend.of_append hreceive
        refine ⟨.inr (h.appended c), fun hstart => ?_, hevents⟩
        change ¬ blankLine <:+: cstr ((req.buf ++ c ++ chunks.flatten).drop _)
        rw [List.append_assoc]
        exact hend hstart
    obtain ⟨h', hend', rfl⟩ := hstep
    have hnot := ih h' hend' hrest
    simpa using hnot

/-- Once a receive has rejected the request, it is not raised if no empty line follows the headers
that have been rejected. -/
theorem not_raised {req₀ : Msg} {all₀ : List (List Event)}
    (hbefore : HttpServer.receiveAll reqHandlers (create .request []) before = .ok (req₀, all₀))
    (hvalid : req₀.isInvalid = false)
    (hreceive : HttpServer.receive reqHandlers req₀ c = .ok (req, events))
    (hinvalid : req.isInvalid = true)
    (hafter : HttpServer.receiveAll reqHandlers req after = .ok (req', all))
    (hend : NoMoreHeaders req after.flatten) : .afterRecvMsg ∉ (events :: all).flatten := by
  have hreached := valid_create.receiveAll hbefore hvalid
  obtain hvalid' | ⟨hrejected, hevents⟩ := hreached.receive hreceive
  · rw [hvalid'.flag] at hinvalid
    cases hinvalid
  · rw [List.flatten_cons, List.mem_append]
    exact not_or.mpr ⟨hevents, hrejected.receiveAll hend hafter⟩

/-- A needle is on one side of a character that it does not have. -/
theorem infix_of_append_cons {needle s t : List UInt8} {d : UInt8} (hd : d ∉ needle)
    (h : needle <:+: s ++ d :: t) : needle <:+: s ∨ needle <:+: t := by
  obtain ⟨l, r, h⟩ := h
  obtain ⟨u, rfl, -⟩ | ⟨u, hu, hr⟩ := List.append_eq_append_iff.mp h
  · exact .inl ⟨l, u, rfl⟩
  · cases u with
    | nil => exact .inl ⟨l, [], by simpa using hu⟩
    | cons e u =>
      obtain ⟨rfl, rfl⟩ := List.cons.inj hr
      obtain ⟨v, -, rfl⟩ | ⟨v, -, hv⟩ := List.append_eq_append_iff.mp hu
      · simp at hd
      · cases v with
        | nil => simp [← show d :: u = needle from hv] at hd
        | cons e v =>
          obtain ⟨rfl, rfl⟩ := List.cons.inj hv
          exact .inr ⟨v, r, rfl⟩

theorem strstr_first {needle l : List UInt8} (hne : needle ≠ [])
    (h : ¬ needle <:+: l ++ needle.dropLast) :
    strstr (l ++ needle) needle = some l.length := by
  rw [strstr_eq_some hne, List.drop_left]
  refine ⟨List.prefix_refl _, fun j hj hat => h ?_⟩
  have hshort : needle <+: (l ++ needle.dropLast).drop j := by
    refine List.prefix_of_prefix_length_le hat ?_ ?_
    · rw [List.drop_append_of_le_length hj.le, List.drop_append_of_le_length hj.le]
      exact (List.prefix_append_right_inj _).mpr (List.dropLast_prefix _)
    · rw [List.length_drop, List.length_append, List.length_dropLast]
      have := List.length_pos_of_ne_nil hne
      omega
  exact hshort.isInfix.trans (List.drop_suffix _ _).isInfix

/-- A colon is a delimiter of every name. -/
def Colon : Place → Prop
  | .front delims | .name delims => chr ':' ∈ delims
  | _ => True

theorem colon_next {q : Place} (h : Colon q) (d : UInt8) : Colon (q.next d) := by
  cases q with
  | front delims =>
    rw [Place.next]
    split <;> exact h
  | name delims =>
    rw [Place.next]
    split
    · trivial
    · exact h
  | space =>
    rw [Place.next]
    split <;> trivial
  | value =>
    rw [Place.next]
    split
    · exact (by decide : chr ':' ∈ text "\n:")
    · trivial

theorem not_nameAtEnd_colon (t : List UInt8) : ¬ NameAtEnd (t ++ [chr ':']) := by
  have hcolon : Colon (t.foldl Place.next (.front (text ":"))) :=
    List.foldlRecOn t Place.next (by decide : chr ':' ∈ text ":") fun q h d _ => colon_next h d
  rw [NameAtEnd, List.foldl_concat]
  generalize t.foldl Place.next (.front (text ":")) = q at hcolon
  cases q with
  | front delims => simp [Place.next, if_pos (show chr ':' ∈ delims from hcolon), Place.isName]
  | name delims => simp [Place.next, if_pos (show chr ':' ∈ delims from hcolon), Place.isName]
  | space => decide
  | value => decide

/-- Behind headers, a receive tries the body and then further headers. -/
theorem HeadersRejected.receive_found {headed : Msg} (h : HeadersRejected req)
    (hparse : parseHeaders (invalid (HttpRejected.appended req c)).1 = .ok (headed, true)) :
    HttpServer.receive reqHandlers req c =
      .ok (if (parseBody headed).2 then
          (fullyParsed reqHandlers (parseBody headed).1, [.afterRecvHeaders, .afterRecvMsg])
        else ((parseBody headed).1, [.nextRecv, .afterRecvHeaders])) := by
  have hrejects : Rejects (HttpRejected.appended req c) := h.rejects
  change afterRecv reqHandlers (HttpRejected.appended req c) = _
  rw [afterRecv, if_pos (show (HttpRejected.appended req c).startLine = true from h.startLine),
    HttpServer.afterRecvStartLine,
    if_pos (show (HttpRejected.appended req c).hasHeaders = true from h.hasHeaders),
    parseBody_of_rejects hrejects]
  simp only [show (invalid (HttpRejected.appended req c)).2 = false from rfl, Bool.false_eq_true,
    if_false, HttpServer.afterRecvHeaders, hparse]
  rfl

theorem exists_body (h : ¬ Rejects msg) : ∃ c, (parseBody (appended msg c)).2 = true := by
  rw [Rejects] at h
  cases hlength : getHeader msg (text "content-length") with
  | none =>
    rw [hlength] at h
    refine ⟨[], ?_⟩
    have hneeds : needsNoBody msg = true := by simpa using h
    rw [parseBody, show getHeader (appended msg []) (text "content-length") = none from hlength]
    simp only [if_pos (show needsNoBody (appended msg []) = true from hneeds)]
  | some contentLength =>
    rw [hlength] at h
    obtain ⟨n, hn⟩ := Option.ne_none_iff_exists'.mp h
    refine ⟨List.replicate (n + msg.parsingOffset) 0, ?_⟩
    have hlen : ¬ n > (appended msg (List.replicate (n + msg.parsingOffset) 0)).buf.length -
        msg.parsingOffset := by
      rw [appended, List.length_append, List.length_replicate]
      omega
    rw [parseBody, show getHeader (appended msg (List.replicate (n + msg.parsingOffset) 0))
      (text "content-length") = some contentLength from hlength]
    simp only [hn]
    exact congrArg Prod.snd (if_neg hlen)

theorem isToken_contentLength : IsToken (text "content-length") := by decide

/-- The header line of a request without content. -/
def emptyContent : Line where
  name := text "content-length"
  rest := text " 0"
  isToken := isToken_contentLength
  oneLine := by decide

theorem parseBody_empty (h : getHeader msg (text "content-length") = some (text "0")) :
    (parseBody msg).2 = true := by
  have hzero : strtoull (text "0") = some 0 := by decide
  rw [parseBody, h]
  simp only [hzero, gt_iff_lt, Nat.not_lt_zero, if_false]

/-- A length behind the rejected headers completes the request. -/
theorem HeadersRejected.complete (h : HeadersRejected req)
    (hend : req.buf.drop (req.parsingOffset - 2) = crlf) :
    ∃ req', HttpServer.receive reqHandlers req (emptyContent.text ++ blankLine) =
      .ok (req', [.afterRecvHeaders, .afterRecvMsg]) := by
  obtain ⟨msg, hmsg⟩ :
      ∃ msg, msg = (invalid (HttpRejected.appended req (emptyContent.text ++ blankLine))).1 :=
    ⟨_, rfl⟩
  have hbuf : msg.buf.drop (msg.parsingOffset - 2) = block [emptyContent] ++ (blankLine ++ []) := by
    rw [hmsg]
    change (req.buf ++ (emptyContent.text ++ blankLine)).drop (req.parsingOffset - 2) = _
    have hle : req.parsingOffset - 2 ≤ req.buf.length := by
      have := congrArg List.length hend
      rw [List.length_drop, show crlf.length = 2 from rfl] at this
      omega
    rw [List.drop_append_of_le_length hle, hend, block_cons]
    simp [block, crlf, text, chr]
  have hoffset : 2 ≤ msg.parsingOffset := hmsg ▸ h.offset
  have hparse := parseHeaders_lines hoffset hbuf
  have hread : readLines [emptyContent] = [(text "content-length", some (text "0"))] := by decide
  rw [hread] at hparse
  have hreceive := @HeadersRejected.receive_found reqHandlers _ _ _ h (hmsg ▸ hparse)
  have hstored (headers : List (List UInt8 × Option (List UInt8))) :
      OrderedMap.get strings (store headers [(text "content-length", some (text "0"))])
        (text "content-length") = some (some (text "0")) :=
    (OrderedMap.get_set _ _ _ _).trans (if_pos (strings.refl _))
  refine ⟨_, hreceive.trans (congrArg Except.ok (if_pos (parseBody_empty ?_)))⟩
  exact congrArg Option.join (hstored _)

/-- With a colon behind what has been received, the headers that are rejected go on up to an empty
line, if no NUL and no empty line is there yet. -/
theorem HeadersRejected.colon (h : HeadersRejected req) (hend : NoMoreHeaders req [])
    (hzero : 0 ∉ req.buf.drop (req.parsingOffset - 2)) :
    ∃ headed, parseHeaders (invalid (HttpRejected.appended req (chr ':' :: blankLine))).1 =
        .ok (headed, true) ∧ headed.startLine = true ∧ headed.hasHeaders = true ∧
      2 ≤ headed.parsingOffset ∧ headed.buf.drop (headed.parsingOffset - 2) = crlf := by
  obtain ⟨t, ht⟩ := h.lineEnd
  have hle : req.parsingOffset - 2 + (t.length + 2) = req.buf.length := by
    have hlen := congrArg List.length ht
    simp only [List.length_append, List.length_drop, show crlf.length = 2 from rfl] at hlen
    omega
  have hoffset := h.offset
  rw [← ht] at hzero
  obtain ⟨next, hnext⟩ :
      ∃ next, next = (invalid (HttpRejected.appended req (chr ':' :: blankLine))).1 := ⟨_, rfl⟩
  have hbuf : next.buf = req.buf ++ chr ':' :: blankLine := hnext ▸ rfl
  have hnextOffset : next.parsingOffset = req.parsingOffset := hnext ▸ rfl
  have hdrop : next.buf.drop (next.parsingOffset - 2) = (crlf ++ t ++ [chr ':']) ++ blankLine := by
    rw [hbuf, hnextOffset, List.drop_append_of_le_length (by omega), ← ht]
    simp
  have hfound : HeadersEnd next (t.length + 3) := by
    have hnone : ¬ blankLine <:+: (crlf ++ t ++ [chr ':']) ++ blankLine.dropLast := by
      rw [List.append_assoc, List.singleton_append]
      intro hinfix
      rcases infix_of_append_cons (by decide) hinfix with hinfix | hinfix
      · have hno := hend h.startLine
        rw [List.append_nil, ← ht, cstr_eq hzero] at hno
        exact hno hinfix
      · exact absurd hinfix.length_le (by decide)
    have hclean : 0 ∉ (crlf ++ t ++ [chr ':']) ++ blankLine := by
      rw [List.append_assoc]
      exact fun h0 => (List.mem_append.mp h0).elim hzero (by decide)
    rw [HeadersEnd, hdrop, cstr_eq hclean, strstr_first (by decide) hnone]
    simp only [List.length_append, List.length_singleton, show crlf.length = 2 from rfl]
    congr 1
    omega
  -- the colon ends the name that may be there
  have htext : headerText next = t ++ [chr ':'] := by
    have hbehind : next.buf.drop next.parsingOffset = (t ++ [chr ':']) ++ blankLine := by
      rw [← Nat.sub_add_cancel (hnextOffset ▸ hoffset : 2 ≤ next.parsingOffset),
        ← List.drop_drop, hdrop]
      simp [crlf, text]
    rw [headerText, show strstr (cstr (next.buf.drop (next.parsingOffset - 2))) blankLine =
      some (t.length + 3) from hfound, hbehind]
    exact List.take_left' (by simp)
  obtain ⟨⟨headed, b⟩, hparse⟩ := (parseHeaders_ok (hnextOffset ▸ hoffset)).mpr
    (htext ▸ not_nameAtEnd_colon t)
  obtain ⟨-, ⟨-, -, hnone⟩ | ⟨i, headers, hi, rfl, hheaded⟩⟩ := parseHeaders_cases hparse
  · exact absurd hfound (hnone _)
  · obtain rfl : t.length + 3 = i := Option.some.inj (hfound.symm.trans hi)
    have hheadedOffset : headed.parsingOffset = req.parsingOffset - 2 + (t.length + 3) + 4 := by
      rw [hheaded, hnextOffset]
    have hheadedBuf : headed.buf = (req.buf ++ chr ':' :: crlf) ++ crlf := by
      rw [hheaded, hbuf, blankLine, List.append_assoc]
      rfl
    refine ⟨headed, hnext ▸ hparse, hheaded ▸ hnext ▸ h.startLine, hheaded ▸ rfl, by omega, ?_⟩
    rw [hheadedOffset, hheadedBuf]
    refine List.drop_left' ?_
    simp only [List.length_append, List.length_cons, show crlf.length = 2 from rfl]
    omega

/-- A request whose headers have been rejected can be accepted, whatever has been received behind
them, if no NUL and no empty line is there. -/
theorem HeadersRejected.exists_raised (h : HeadersRejected req) (hend : NoMoreHeaders req [])
    (hzero : 0 ∉ req.buf.drop (req.parsingOffset - 2)) (reqHandlers : ℕ) :
    ∃ after req' all, HttpServer.receiveAll reqHandlers req after = .ok (req', all) ∧
      .afterRecvMsg ∈ all.flatten := by
  obtain ⟨headed, hparse, hstart, hheaders, hoffset, hcrlf⟩ := h.colon hend hzero
  have hreceive := @HeadersRejected.receive_found reqHandlers _ _ _ h hparse
  cases hbody : (parseBody headed).2 with
  | true =>
    rw [if_pos hbody] at hreceive
    exact ⟨[_], _, _, receiveAll_cons hreceive, by simp⟩
  | false =>
    rw [if_neg (by simp [hbody])] at hreceive
    by_cases hrejects : Rejects headed
    · rw [parseBody_of_rejects hrejects] at hreceive
      have hagain : HeadersRejected (invalid headed).1 :=
        ⟨rfl, hstart, hheaders, hrejects, hoffset, hcrlf ▸ List.prefix_refl _⟩
      obtain ⟨req', hcomplete⟩ := @HeadersRejected.complete reqHandlers _ hagain hcrlf
      exact ⟨[_, _], _, _,
        (receiveAll_cons hreceive).trans (by rw [receiveAll_cons hcomplete]; rfl), by simp⟩
    · -- only a part of the body has been received
      obtain ⟨c, hc⟩ := exists_body hrejects
      have hpair : parseBody headed = ((parseBody headed).1, false) := Prod.ext rfl hbody
      rw [(parseBody_valid hrejects hpair).2.2 rfl] at hreceive
      have hlast : HttpServer.receive reqHandlers headed c =
          .ok (fullyParsed reqHandlers (parseBody (HttpRejected.appended headed c)).1,
            [.afterRecvMsg]) := by
        change afterRecv reqHandlers (HttpRejected.appended headed c) = _
        rw [afterRecv, if_pos (show (HttpRejected.appended headed c).startLine = true from hstart),
          HttpServer.afterRecvStartLine,
          if_pos (show (HttpRejected.appended headed c).hasHeaders = true from hheaders)]
        exact if_pos hc
      exact ⟨[_, _], _, _, (receiveAll_cons hreceive).trans (by rw [receiveAll_cons hlast]; rfl),
        by simp⟩

/-- A request that has just been rejected, with no empty line left to read, is never raised,
whatever arrives, if and only if its start line was rejected or a NUL hides what arrives. -/
theorem Rejected.never_raised (h : Rejected req) (hend : NoMoreHeaders req []) :
    (∀ after req' all, HttpServer.receiveAll reqHandlers req after = .ok (req', all) →
        .afterRecvMsg ∉ all.flatten) ↔
      req.startLine = false ∨ 0 ∈ req.buf.drop (req.parsingOffset - 2) := by
  constructor
  · intro hnever
    refine or_iff_not_imp_left.mpr fun hstart => ?_
    by_contra hzero
    cases h with
    | inl h => exact hstart h.startLine
    | inr h =>
      obtain ⟨after, req', all, hrun, hmem⟩ := h.exists_raised hend hzero reqHandlers
      exact hnever after req' all hrun hmem
  · intro hhidden after req' all hrun
    refine h.receiveAll (fun hstart => ?_) hrun
    have hzero := hhidden.resolve_left (by simp [hstart])
    obtain ⟨l, r, hsplit⟩ := List.append_of_mem hzero
    have hle : req.parsingOffset - 2 ≤ req.buf.length := by
      by_contra hlt
      rw [List.drop_of_length_le (by omega)] at hsplit
      simp at hsplit
    have hnone := hend hstart
    rw [List.append_nil, hsplit, cstr_append_zero] at hnone
    rwa [List.drop_append_of_le_length hle, hsplit, List.append_assoc, List.cons_append,
      cstr_append_zero]

def uploadHead : List UInt8 := text "POST / HTTP/1.1\r\na: b\r\n\r\n"

/-- The request when its headers have been rejected. -/
def uploadRejected : Msg :=
  { create .request uploadHead with
    headers := [(text "a", some (text "b"))]
    ver := .v1_1
    methodSpUri := some (text "POST /")
    uri := some (text "/")
    versionCrlf := some (text "HTTP/1.1\r\n")
    method := .post
    parsingOffset := 25
    isInvalid := true
    startLine := true
    hasHeaders := true }

/-- The request when further headers have been read. -/
def uploadAccepted : Msg :=
  { uploadRejected with
    buf := uploadHead ++ text "content-length: 0\r\n\r\n"
    headers := [(text "a", some (text "b")), (text "content-length", some (text "0"))]
    body := some []
    parsingOffset := 0
    hasBody := true }

/-- The request while the end of a header line is missing. -/
def uploadWaiting : Msg :=
  { uploadRejected with buf := uploadHead ++ text "content-length: 0\r\n" }

theorem not_raised_upload :
    HttpServer.receiveAll 0 (create .request []) [uploadHead, text "content-length: 0\r\n"] =
        .ok (uploadWaiting, [[.nextRecv, .afterRecvHeaders], [.nextRecv]]) ∧
      Event.afterRecvMsg ∉ [[Event.nextRecv, .afterRecvHeaders], [.nextRecv]].flatten :=
  ⟨by decide +kernel, @not_raised 0 uploadHead [] [text "content-length: 0\r\n"] uploadRejected
    uploadWaiting [.nextRecv, .afterRecvHeaders] [[.nextRecv]] (create .request []) [] rfl rfl
    (by decide +kernel) rfl (by decide +kernel) (by decide +kernel)⟩

theorem raised_upload :
    HttpServer.receive 0 (create .request []) uploadHead =
        .ok (uploadRejected, [.nextRecv, .afterRecvHeaders]) ∧
      uploadRejected.isInvalid = true ∧
      HttpServer.receiveAll 0 uploadRejected [text "content-length: 0\r\n\r\n"] =
        .ok (uploadAccepted, [[.afterRecvHeaders, .afterRecvMsg]]) :=
  ⟨by decide +kernel, rfl, by decide +kernel⟩

end Libuo.HttpRejected
