import Libuo.HttpRejected

/-!
# Messages of any kind in chunks

Servers and clients receive in the same way: a chunk is appended to the receive buffer, and the
message is parsed as far as it goes. They differ in what becomes of a message that is complete.
What has been reached is computed from the bytes that have been received, as if they had come in
one chunk, for as long as the end of the headers is not found again.
-/

namespace Libuo.HttpReceive
open CStrings CText HttpMsg HttpHeaders HttpServer HttpParseSafety HttpRejected

variable (finish : Msg → Msg)

/-- The second part of `tcp_server_evt_handler_after_recv` and `tcp_client_evt_handler_after_recv`,
when there is no body yet. -/
def afterRecvHeaders (msg : Msg) : Except Fault (Msg × List Event) :=
  (parseHeaders msg).map fun r =>
    if r.2 then
      let b := parseBody r.1
      if b.2 then (finish b.1, [.afterRecvHeaders, .afterRecvMsg])
      else (b.1, [.nextRecv, .afterRecvHeaders])
    else (r.1, [.nextRecv])

/-- The handler with a start line. -/
def afterRecvStartLine (msg : Msg) : Except Fault (Msg × List Event) :=
  if msg.hasHeaders then
    let b := parseBody msg
    if b.2 then .ok (finish b.1, [.afterRecvMsg])
    else afterRecvHeaders finish b.1
  else afterRecvHeaders finish msg

/-- The handler. -/
def afterRecv (msg : Msg) : Except Fault (Msg × List Event) :=
  if msg.startLine then afterRecvStartLine finish msg
  else (parseStartLine msg).bind fun r =>
    if r.2 then afterRecvStartLine finish r.1 else .ok (r.1, [.nextRecv])

/-- One receive: the chunk is behind the bytes that have been received. -/
def receive (msg : Msg) (chunk : List UInt8) : Except Fault (Msg × List Event) :=
  afterRecv finish { msg with buf := msg.buf ++ chunk }

/-- One receive after the other, with what each of them has done. -/
def receiveAll : Msg → List (List UInt8) → Except Fault (Msg × List (List Event))
  | msg, [] => .ok (msg, [])
  | msg, chunk :: chunks =>
    (receive finish msg chunk).bind fun r =>
      (receiveAll r.1 chunks).map fun s => (s.1, r.2 :: s.2)

/-- A server keeps the address of its request handlers in a complete message. -/
theorem server_afterRecv (reqHandlers : ℕ) :
    HttpServer.afterRecv reqHandlers = afterRecv (fullyParsed reqHandlers) := rfl

theorem server_receiveAll (reqHandlers : ℕ) (msg : Msg) (chunks : List (List UInt8)) :
    HttpServer.receiveAll reqHandlers msg chunks =
      receiveAll (fullyParsed reqHandlers) msg chunks := by
  induction chunks generalizing msg with
  | nil => rfl
  | cons chunk chunks ih =>
    rw [HttpServer.receiveAll, receiveAll]
    exact congrArg _ (funext fun r => by rw [ih])

variable {finish} {msg msg' : Msg} {c p : List UInt8} {chunks : List (List UInt8)}
  {events : List Event} {all : List (List Event)} {type : MsgType} {b : Bool} {cr : ℕ}

theorem parseRequestLine_appended (msg : Msg) (line : List UInt8) (cr : ℕ) (c : List UInt8) :
    parseRequestLine (appended msg c) line cr =
      (appended (parseRequestLine msg line cr).1 c, (parseRequestLine msg line cr).2) := by
  rw [parseRequestLine, parseRequestLine]
  cases memchr line (chr ' ') line.length with
  | none => rfl
  | some sp1 =>
    simp only
    cases strrchr (cstr (line.drop (sp1 + 1))) (chr ' ') with
    | none => rfl
    | some sp2 =>
      simp only
      cases strchr ((cstr (line.drop (sp1 + 1))).drop (sp2 + 1)) (chr '\r') with
      | none => rfl
      | some n =>
        simp only
        cases verOf ((0 :: (cstr (line.drop (sp1 + 1))).drop (sp2 + 1)).getD n 0) <;> rfl

theorem parseStatusLine_appended (msg : Msg) (line : List UInt8) (cr : ℕ) (c : List UInt8) :
    parseStatusLine (appended msg c) line cr =
      (parseStatusLine msg line cr).map fun r => (appended r.1 c, r.2) := by
  rw [parseStatusLine, parseStatusLine]
  simp only
  cases strchr (cstr (line.take (line.length - 2))) (chr ' ') with
  | none => rfl
  | some n =>
    cases n with
    | zero => rfl
    | succ n =>
      simp only
      cases verOf ((cstr (line.take (line.length - 2))).getD n 0) with
      | none => rfl
      | some ver =>
        simp only
        cases (scanInt ((cstr (line.take (line.length - 2))).drop (n + 2))).bind statusOf <;> rfl

theorem parseStartLine_lineEnd (hcr : LineEnd msg cr) : parseStartLine msg =
    match msg.type with
    | .request => .ok (parseRequestLine msg (msg.buf.take (cr + 2)) cr)
    | .response => parseStatusLine msg (msg.buf.take (cr + 2)) cr := by
  have hne : msg.buf ≠ [] := List.ne_nil_of_length_pos (Nat.lt_of_lt_of_le (by omega) hcr.lt)
  rw [parseStartLine, if_neg hne, hcr.1]
  cases msg.type <;> simp only [if_pos hcr.2]

/-- Bytes behind the first line do not change what it is parsed as. -/
theorem parseStartLine_appended (hcr : LineEnd msg cr) (c : List UInt8) :
    parseStartLine (appended msg c) =
      (parseStartLine msg).map fun r => (appended r.1 c, r.2) := by
  have htake : (appended msg c).buf.take (cr + 2) = msg.buf.take (cr + 2) :=
    List.take_append_of_le_length hcr.lt
  rw [parseStartLine_lineEnd (lineEnd_appended hcr c), parseStartLine_lineEnd hcr, htake]
  change (match msg.type with | .request => _ | .response => _) = _
  cases msg.type with
  | request => exact congrArg Except.ok (parseRequestLine_appended msg _ cr c)
  | response => exact parseStatusLine_appended msg _ cr c

/-- A request line that has been rejected is rejected again, with the same result. -/
theorem parseRequestLine_again (h : (parseRequestLine msg p cr).2 = false) :
    parseRequestLine (parseRequestLine msg p cr).1 p cr = parseRequestLine msg p cr := by
  revert h
  rw [parseRequestLine]
  cases hsp1 : memchr p (chr ' ') p.length with
  | none => exact fun _ => by simp only [parseRequestLine, hsp1, invalid]
  | some sp1 =>
    simp only
    cases hsp2 : strrchr (cstr (p.drop (sp1 + 1))) (chr ' ') with
    | none =>
      intro _
      simp only [parseRequestLine, hsp1, hsp2, invalid]
      cases methodOf (p.take sp1) <;> rfl
    | some sp2 =>
      simp only
      cases hn : strchr ((cstr (p.drop (sp1 + 1))).drop (sp2 + 1)) (chr '\r') with
      | none =>
        intro _
        simp only [parseRequestLine, hsp1, hsp2, hn, invalid]
        cases methodOf (p.take sp1) <;> rfl
      | some n =>
        simp only
        cases hver : verOf ((0 :: (cstr (p.drop (sp1 + 1))).drop (sp2 + 1)).getD n 0) with
        | none =>
          intro _
          simp only [parseRequestLine, hsp1, hsp2, hn, hver, invalid]
          cases methodOf (p.take sp1) <;> rfl
        | some ver => exact fun h => absurd h (by simp)

theorem parseStatusLine_again (h : parseStatusLine msg p cr = .ok (msg', false)) :
    parseStatusLine msg' p cr = .ok (msg', false) := by
  rw [parseStatusLine] at h ⊢
  simp only at h ⊢
  cases hsp1 : strchr (cstr (p.take (p.length - 2))) (chr ' ') with
  | none =>
    simp only [hsp1] at h ⊢
    obtain ⟨rfl, -⟩ := Prod.mk.inj (Except.ok.inj h)
    rfl
  | some n =>
    cases n with
    | zero => simp only [hsp1, reduceCtorEq] at h
    | succ n =>
      simp only [hsp1] at h ⊢
      cases hver : verOf ((cstr (p.take (p.length - 2))).getD n 0) with
      | none =>
        simp only [hver] at h ⊢
        obtain ⟨rfl, -⟩ := Prod.mk.inj (Except.ok.inj h)
        rfl
      | some ver =>
        simp only [hver] at h ⊢
        cases hstatus : (scanInt ((cstr (p.take (p.length - 2))).drop (n + 2))).bind statusOf with
        | none =>
          simp only [hstatus] at h ⊢
          obtain ⟨rfl, -⟩ := Prod.mk.inj (Except.ok.inj h)
          rfl
        | some status => simp only [hstatus, Except.ok.injEq, Prod.mk.injEq, reduceCtorEq,
            and_false] at h

theorem strstr_prefix {needle s t : List UInt8} {i : ℕ} (hne : needle ≠ [])
    (h : strstr s needle = some i) (hst : s <+: t) : strstr t needle = some i := by
  obtain ⟨r, rfl⟩ := hst
  obtain ⟨hat, hbefore⟩ := (strstr_eq_some hne).mp h
  have hlen := hat.length_le
  have hpos := List.length_pos_of_ne_nil hne
  rw [List.length_drop] at hlen
  rw [strstr_eq_some hne, List.drop_append_of_le_length (by omega)]
  refine ⟨hat.trans (List.prefix_append _ _), fun j hj hfound => hbefore j hj ?_⟩
  rw [List.drop_append_of_le_length (by omega)] at hfound
  exact List.prefix_of_prefix_length_le hfound (List.prefix_append _ _)
    (by rw [List.length_drop]; omega)

theorem headersEnd_appended {i : ℕ} (h : HeadersEnd msg i) (c : List UInt8) :
    HeadersEnd (appended msg c) i := by
  apply strstr_prefix (by decide) h
  have hdrop : (appended msg c).buf.drop ((appended msg c).parsingOffset - 2) =
      msg.buf.drop (msg.parsingOffset - 2) ++ c.drop (msg.parsingOffset - 2 - msg.buf.length) :=
    List.drop_append
  rw [hdrop]
  exact cstr_prefix _ _

/-- Bytes behind the headers do not change what these are parsed as. -/
theorem parseHeaders_found {i : ℕ} (hoffset : 2 ≤ msg.parsingOffset) (hi : HeadersEnd msg i)
    (c : List UInt8) : parseHeaders (appended msg c) =
      (parseHeaders msg).map fun r => (appended r.1 c, r.2) := by
  have hle := hi.le hoffset
  have hi' := headersEnd_appended hi c
  have hoffset' : ¬ msg.parsingOffset < 2 := Nat.not_lt.mpr hoffset
  have hstart : (appended msg c).parsingOffset = msg.parsingOffset := rfl
  rw [HeadersEnd, blankLine] at hi hi'
  rw [hstart] at hi'
  rw [parseHeaders, parseHeaders, if_neg hoffset', if_neg (hstart ▸ hoffset')]
  simp only [hstart, hi, hi']
  by_cases hgt : msg.parsingOffset > msg.parsingOffset - 2 + i
  · rw [if_pos hgt, if_pos hgt]
    rfl
  · have htext : ((appended msg c).buf.drop msg.parsingOffset).take
        (msg.parsingOffset - 2 + i - msg.parsingOffset) = (msg.buf.drop msg.parsingOffset).take
          (msg.parsingOffset - 2 + i - msg.parsingOffset) := by
      change ((msg.buf ++ c).drop msg.parsingOffset).take _ = _
      rw [List.drop_append_of_le_length (by omega),
        List.take_append_of_le_length (by rw [List.length_drop]; omega)]
    have hheaders : (appended msg c).headers = msg.headers := rfl
    rw [if_neg hgt, if_neg hgt]
    simp only [htext, hheaders]
    generalize parseHeaderLoop _ _ msg.headers = loop
    cases loop <;> rfl

theorem parseHeaders_appended (h : parseHeaders msg = .ok (msg', true)) (c : List UInt8) :
    parseHeaders (appended msg c) = .ok (appended msg' c, true) := by
  obtain ⟨hoffset, ⟨-, hb, -⟩ | ⟨i, headers, hi, -, -⟩⟩ := parseHeaders_cases h
  · cases hb
  · rw [parseHeaders_found hoffset hi, h]
    rfl

/-- A body that has been tried in vain is tried again with more bytes. -/
theorem parseBody_again (h : (parseBody msg).2 = false) (c : List UInt8) :
    parseBody (appended (parseBody msg).1 c) = parseBody (appended msg c) := by
  by_cases hrejects : Rejects msg
  · have hinvalid : Rejects (appended (invalid msg).1 c) := hrejects
    rw [parseBody_of_rejects hrejects, parseBody_of_rejects hinvalid,
      parseBody_of_rejects (show Rejects (appended msg c) from hrejects)]
    rfl
  · have htried : parseBody msg = ((parseBody msg).1, (parseBody msg).2) := rfl
    have hsame : (parseBody msg).1 = msg := (parseBody_valid hrejects htried).2.2 h
    rw [hsame]

/-- What one receive makes of the first bytes of a connection. -/
inductive Reached (finish : Msg → Msg) (type : MsgType) (p : List UInt8) :
    Msg → List Event → Prop
  | line {msg : Msg} (h : parseStartLine (create type p) = .ok (msg, false)) :
    Reached finish type p msg [.nextRecv]
  | started {msg : Msg} (h : parseStartLine (create type p) = .ok (msg, true))
    (hheaders : parseHeaders msg = .ok (msg, false)) : Reached finish type p msg [.nextRecv]
  | headed {started msg : Msg} (h : parseStartLine (create type p) = .ok (started, true))
    (hheaders : parseHeaders started = .ok (msg, true)) (hbody : (parseBody msg).2 = false) :
    Reached finish type p (parseBody msg).1 [.nextRecv, .afterRecvHeaders]
  | complete {started msg : Msg} (h : parseStartLine (create type p) = .ok (started, true))
    (hheaders : parseHeaders started = .ok (msg, true)) (hbody : (parseBody msg).2 = true) :
    Reached finish type p (finish (parseBody msg).1) [.afterRecvHeaders, .afterRecvMsg]

theorem hasHeaders_of_parseStartLine (h : parseStartLine (create type p) = .ok (msg, b)) :
    msg.hasHeaders = false := by
  obtain ⟨rfl, -, -⟩ | ⟨cr, -, hline⟩ := parseStartLine_cases h
  · rfl
  · exact hline.kept.hasHeaders

theorem afterRecvStartLine_started (h : parseStartLine (create type p) = .ok (msg, b))
    (c : List UInt8) :
    afterRecvStartLine finish (appended msg c) = afterRecvHeaders finish (appended msg c) := by
  have hmsg := hasHeaders_of_parseStartLine h
  have hheaders : (appended msg c).hasHeaders = false := hmsg
  rw [afterRecvStartLine, hheaders, if_neg Bool.false_ne_true]

theorem afterRecv_started (h : parseStartLine (create type p) = .ok (msg, true)) :
    afterRecv finish (create type p) = afterRecvHeaders finish msg := by
  have hline : ¬ (create type p).startLine = true := Bool.false_ne_true
  have hstarted := @afterRecvStartLine_started finish msg p type true h []
  rw [appended, List.append_nil] at hstarted
  rw [afterRecv, if_neg hline, h]
  exact hstarted

theorem reached_iff : afterRecv finish (create type p) = .ok (msg, events) ↔
    Reached finish type p msg events := by
  have hline : ¬ (create type p).startLine = true := Bool.false_ne_true
  constructor
  · intro h
    cases hparse : parseStartLine (create type p) with
    | error e =>
      rw [afterRecv, if_neg hline, hparse] at h
      cases h
    | ok r =>
      obtain ⟨started, b⟩ := r
      cases b with
      | false =>
        rw [afterRecv, if_neg hline, hparse] at h
        obtain ⟨rfl, rfl⟩ := Prod.mk.inj (Except.ok.inj h)
        exact .line hparse
      | true =>
        rw [afterRecv_started hparse, afterRecvHeaders] at h
        cases hheaders : parseHeaders started with
        | error e =>
          rw [hheaders] at h
          cases h
        | ok r =>
          obtain ⟨headed, found⟩ := r
          rw [hheaders] at h
          cases found with
          | false =>
            obtain ⟨rfl, rfl⟩ := Prod.mk.inj (Except.ok.inj h)
            obtain ⟨-, ⟨rfl, -⟩ | ⟨_, _, -, hb, -⟩⟩ := parseHeaders_cases hheaders
            · exact .started hparse hheaders
            · cases hb
          | true =>
            cases hbody : (parseBody headed).2 with
            | false =>
              simp only [Except.map, if_true, hbody, Bool.false_eq_true, if_false] at h
              obtain ⟨rfl, rfl⟩ := Prod.mk.inj (Except.ok.inj h)
              exact .headed hparse hheaders hbody
            | true =>
              simp only [Except.map, if_true, hbody] at h
              obtain ⟨rfl, rfl⟩ := Prod.mk.inj (Except.ok.inj h)
              exact .complete hparse hheaders hbody
  · intro h
    cases h with
    | line h => rw [afterRecv, if_neg hline, h]; rfl
    | started h hheaders => rw [afterRecv_started h, afterRecvHeaders, hheaders]; rfl
    | headed h hheaders hbody =>
      rw [afterRecv_started h, afterRecvHeaders, hheaders]
      simp only [Except.map, if_true, hbody, Bool.false_eq_true, if_false]
    | complete h hheaders hbody =>
      rw [afterRecv_started h, afterRecvHeaders, hheaders]
      simp only [Except.map, if_true, hbody]

/-- The headers are there, and the body is not: the message with its headers. -/
def headed (type : MsgType) (p : List UInt8) : Option Msg :=
  match afterRecv id (create type p) with
  | .ok (msg, [.nextRecv, .afterRecvHeaders]) => some msg
  | _ => none

/-- The bytes make a message, with or without others behind it. -/
def Complete (type : MsgType) (p : List UInt8) : Prop :=
  (match afterRecv id (create type p) with
    | .ok r => decide (.afterRecvMsg ∈ r.2)
    | .error _ => false) = true

instance (type : MsgType) (p : List UInt8) : Decidable (Complete type p) :=
  inferInstanceAs (Decidable (_ = true))

theorem headed_iff : headed type p = some msg ↔
    Reached id type p msg [.nextRecv, .afterRecvHeaders] := by
  rw [← reached_iff, headed]
  constructor
  · intro h
    split at h
    · rename_i hreached
      rwa [Option.some.inj h] at hreached
    · cases h
  · intro h
    rw [h]

theorem Reached.finished (h : Reached finish type p msg events) :
    ∃ msg₀, Reached id type p msg₀ events ∧
      (.afterRecvMsg ∉ events → msg = msg₀) ∧ (.afterRecvMsg ∈ events → msg = finish msg₀) := by
  cases h with
  | line h => exact ⟨_, .line h, fun _ => rfl, by simp⟩
  | started h hheaders => exact ⟨_, .started h hheaders, fun _ => rfl, by simp⟩
  | headed h hheaders hbody => exact ⟨_, .headed h hheaders hbody, fun _ => rfl, by simp⟩
  | complete h hheaders hbody =>
    exact ⟨_, .complete h hheaders hbody, fun hno => absurd (by simp) hno, fun _ => rfl⟩

theorem Reached.complete_iff (h : Reached finish type p msg events) :
    Complete type p ↔ .afterRecvMsg ∈ events := by
  obtain ⟨msg₀, h₀, -⟩ := h.finished
  rw [Complete, reached_iff.mpr h₀]
  exact decide_eq_true_iff

end Libuo.HttpReceive
