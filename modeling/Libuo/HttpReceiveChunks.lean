import Libuo.HttpReceive

/-!
# Messages of any kind, chunk by chunk

A message that comes in chunks is received as if it had come in one, unless the end of the headers
is found again in a body that is not complete.
-/

namespace Libuo.HttpReceive
open CStrings CText HttpMsg HttpHeaders HttpServer HttpParseSafety HttpRejected

variable {finish : Msg → Msg} {msg msg' : Msg} {c p bytes : List UInt8}
  {chunks : List (List UInt8)} {events : List Event} {type : MsgType}

/-- While there is neither a start line nor headers, a chunk is received as if all had come at
once. -/
theorem receive_early (h : Reached finish type p msg [.nextRecv]) (c : List UInt8) :
    receive finish msg c = afterRecv finish (create type (p ++ c)) := by
  have hline : ¬ (create type (p ++ c)).startLine = true := Bool.false_ne_true
  have hcreate : appended (create type p) c = create type (p ++ c) := rfl
  change afterRecv finish (appended msg c) = _
  cases h with
  | line h =>
    obtain ⟨rfl, -, -⟩ | ⟨cr, hcr, hparsed⟩ := parseStartLine_cases h
    · rfl
    have hstart : (appended msg c).startLine = false := (hparsed.rejected rfl).2
    have hcr' : LineEnd msg cr := by
      rw [LineEnd, hparsed.kept.buf]
      exact hcr
    have hagain : parseStartLine msg = .ok (msg, false) := by
      rw [parseStartLine_lineEnd hcr] at h
      rw [parseStartLine_lineEnd hcr', hparsed.kept.type, hparsed.kept.buf]
      revert h
      cases type with
      | request =>
        intro h
        have hrejected : parseRequestLine (create .request p) (p.take (cr + 2)) cr = (msg, false) :=
          Except.ok.inj h
        have hrejected' := parseRequestLine_again (congrArg Prod.snd hrejected)
        rw [hrejected] at hrejected'
        exact congrArg Except.ok hrejected'
      | response => exact fun h => parseStatusLine_again h
    rw [afterRecv, hstart, if_neg Bool.false_ne_true, parseStartLine_appended hcr', hagain,
      afterRecv, if_neg hline, ← hcreate, parseStartLine_appended hcr, h]
  | started h hheaders =>
    obtain ⟨-, hb, -⟩ | ⟨cr, hcr, hparsed⟩ := parseStartLine_cases h
    · cases hb
    have hstart : (appended msg c).startLine = true := (hparsed.parsed rfl).2.1
    have hparse : parseStartLine (create type (p ++ c)) = .ok (appended msg c, true) := by
      rw [← hcreate, parseStartLine_appended hcr, h]
      rfl
    rw [afterRecv, if_pos hstart, afterRecvStartLine_started h, afterRecv_started hparse]

theorem afterRecv_headed {started : Msg} (h : parseStartLine (create type p) = .ok (started, true))
    (hheaders : parseHeaders started = .ok (msg, true)) (c : List UInt8) :
    afterRecv finish (create type (p ++ c)) =
      .ok (if (parseBody (appended msg c)).2 then
          (finish (parseBody (appended msg c)).1, [.afterRecvHeaders, .afterRecvMsg])
        else ((parseBody (appended msg c)).1, [.nextRecv, .afterRecvHeaders])) := by
  obtain ⟨-, hb, -⟩ | ⟨cr, hcr, hparsed⟩ := parseStartLine_cases h
  · cases hb
  have hparse : parseStartLine (create type (p ++ c)) = .ok (appended started c, true) := by
    rw [show create type (p ++ c) = appended (create type p) c from rfl,
      parseStartLine_appended hcr, h]
    rfl
  rw [afterRecv_started hparse, afterRecvHeaders, parseHeaders_appended hheaders]
  rfl

/-- With headers, a chunk completes the body, or the headers are looked for again. -/
theorem receive_headed {started : Msg} (h : parseStartLine (create type p) = .ok (started, true))
    (hheaders : parseHeaders started = .ok (msg, true)) (hbody : (parseBody msg).2 = false)
    (c : List UInt8) : receive finish (parseBody msg).1 c =
      if (parseBody (appended msg c)).2 then
        .ok (finish (parseBody (appended msg c)).1, [.afterRecvMsg])
      else afterRecvHeaders finish (parseBody (appended msg c)).1 := by
  obtain ⟨-, hb, -⟩ | ⟨cr, -, hparsed⟩ := parseStartLine_cases h
  · cases hb
  obtain ⟨-, ⟨-, hb, -⟩ | ⟨i, headers, -, -, hmsg⟩⟩ := parseHeaders_cases hheaders
  · cases hb
  have hkept : (parseBody msg).1.startLine = true ∧ (parseBody msg).1.hasHeaders = true := by
    have htried : parseBody msg = ((parseBody msg).1, false) := Prod.ext rfl hbody
    have hstart : msg.startLine = true := hmsg ▸ (hparsed.parsed rfl).2.1
    obtain hsame | hsame := parseBody_cases htried
    · rw [hsame]
      exact ⟨hstart, by rw [hmsg]⟩
    · rw [hsame]
      exact ⟨hstart, by rw [hmsg]⟩
  change afterRecv finish (appended (parseBody msg).1 c) = _
  rw [afterRecv, if_pos (show (appended (parseBody msg).1 c).startLine = true from hkept.1),
    afterRecvStartLine, if_pos (show (appended (parseBody msg).1 c).hasHeaders = true from hkept.2),
    parseBody_again hbody]

/-- The event handlers that are run. -/
def handlers (events : List Event) : List Event := events.filter (· ≠ .nextRecv)

/-- With a chunk that does not complete the body, the bytes that have come behind the headers, in this
chunk or before, have an empty line, or the first of them make one with the end of the headers. What
is behind a NUL does not count. -/
def RescannedAt (type : MsgType) (p c : List UInt8) : Prop :=
  ∃ msg ∈ headed type p, ¬ Complete type (p ++ c) ∧
    blankLine <:+: cstr ((p ++ c).drop (msg.parsingOffset - 2))

instance (type : MsgType) (p c : List UInt8) : Decidable (RescannedAt type p c) :=
  inferInstanceAs (Decidable (∃ msg ∈ headed type p, _ ∧ _))

theorem not_rescannedAt (h : headed type p = none) (c : List UInt8) : ¬ RescannedAt type p c := by
  rintro ⟨msg, hmsg, -⟩
  rw [h] at hmsg
  cases hmsg

/-- A body that is not complete leaves the bytes and the end of the headers as they are. -/
theorem parseBody_place (h : (parseBody msg).2 = false) :
    (parseBody msg).1.buf = msg.buf ∧ (parseBody msg).1.parsingOffset = msg.parsingOffset := by
  have htried : parseBody msg = ((parseBody msg).1, false) := Prod.ext rfl h
  obtain hsame | hsame := parseBody_cases htried
  · exact ⟨by rw [hsame], by rw [hsame]⟩
  · exact ⟨by rw [hsame], by rw [hsame]⟩

/-- Where the bytes and the end of the headers are in a message with headers. -/
theorem Reached.headed_place (h : Reached finish type p msg [.nextRecv, .afterRecvHeaders]) :
    msg.buf = p ∧ 2 ≤ msg.parsingOffset := by
  cases h with
  | @headed started msg h hheaders hbody =>
    obtain ⟨-, hb, -⟩ | ⟨cr, -, hparsed⟩ := parseStartLine_cases h
    · cases hb
    obtain ⟨hoffset, ⟨-, hb, -⟩ | ⟨i, headers, -, -, hmsg⟩⟩ := parseHeaders_cases hheaders
    · cases hb
    have hbuf : started.buf = p := hparsed.kept.buf
    rw [(parseBody_place hbody).1, (parseBody_place hbody).2, hmsg]
    exact ⟨hbuf, by simp only; omega⟩

/-- A chunk that does not end the headers again has the same effect as when all had come at
once. -/
theorem receive_step (h : Reached finish type p msg events) (hno : .afterRecvMsg ∉ events)
    (hscan : ¬ RescannedAt type p c) :
    ((receive finish msg c).map fun r => (r.1, handlers events ++ handlers r.2)) =
      (afterRecv finish (create type (p ++ c))).map fun r => (r.1, handlers r.2) := by
  have hevents : handlers [.nextRecv] = [] := rfl
  cases h with
  | line h =>
    rw [receive_early (.line h), hevents]
    rfl
  | started h hheaders =>
    rw [receive_early (.started h hheaders), hevents]
    rfl
  | complete h hheaders hbody => exact absurd (by simp) hno
  | @headed started msg h hheaders hbody =>
    have hreached : Reached finish type p (parseBody msg).1 [.nextRecv, .afterRecvHeaders] :=
      .headed h hheaders hbody
    have hheaded : headed type p = some (parseBody msg).1 :=
      headed_iff.mpr (.headed h hheaders hbody)
    rw [receive_headed h hheaders hbody, afterRecv_headed h hheaders]
    cases hmore : (parseBody (appended msg c)).2 with
    | true => rfl
    | false =>
      simp only [Bool.false_eq_true, if_false]
      obtain ⟨hbuf, hoffset⟩ := hreached.headed_place
      obtain ⟨hbuf₀, hoffset₀⟩ := parseBody_place hbody
      obtain ⟨hbuf₁, hoffset₁⟩ := parseBody_place hmore
      have hincomplete : ¬ Complete type (p ++ c) := by
        rw [Complete, afterRecv_headed h hheaders, hmore]
        simp
      have hnone : ¬ blankLine <:+: cstr ((parseBody (appended msg c)).1.buf.drop
          ((parseBody (appended msg c)).1.parsingOffset - 2)) := by
        intro hfound
        refine hscan ⟨_, hheaded, hincomplete, ?_⟩
        have hplace : (appended msg c).parsingOffset = msg.parsingOffset := rfl
        have hbytes : (appended msg c).buf = p ++ c := by
          change msg.buf ++ c = p ++ c
          rw [← hbuf₀, hbuf]
        rw [hbuf₁, hoffset₁, hplace, hbytes] at hfound
        rw [hoffset₀]
        exact hfound
      have hfront : ¬ (parseBody (appended msg c)).1.parsingOffset < 2 := by
        have hplace : (appended msg c).parsingOffset = msg.parsingOffset := rfl
        rw [hoffset₁, hplace, ← hoffset₀]
        exact Nat.not_lt.mpr hoffset
      have hparse : parseHeaders (parseBody (appended msg c)).1 =
          .ok ((parseBody (appended msg c)).1, false) := by
        rw [parseHeaders, if_neg hfront]
        rw [← strstr_eq_none (by decide), blankLine] at hnone
        simp only [hnone]
      rw [afterRecvHeaders, hparse]
      rfl

theorem receive_rescanned (hreached : Reached finish type p msg [.nextRecv, .afterRecvHeaders])
    (hscan : RescannedAt type p c) {r : Msg × List Event} (hr : receive finish msg c = .ok r) :
    .afterRecvHeaders ∈ r.2 := by
  obtain ⟨msg₀, hmsg₀, hincomplete, hfound⟩ := hscan
  have hoffset := hreached.headed_place.2
  obtain ⟨msg₁, hreached₁, hsame, -⟩ := hreached.finished
  obtain rfl : msg₁ = msg₀ := Option.some.inj ((headed_iff.mpr hreached₁).symm.trans hmsg₀)
  obtain rfl : msg = msg₁ := hsame (by simp)
  cases hreached with
  | @headed started msg h hheaders hbody =>
    rw [receive_headed h hheaders hbody] at hr
    rw [Complete, afterRecv_headed h hheaders] at hincomplete
    have hmore : (parseBody (appended msg c)).2 = false := by
      by_contra hmore
      rw [if_pos (by simpa using hmore)] at hincomplete
      exact hincomplete rfl
    rw [hmore, if_neg Bool.false_ne_true] at hr
    obtain ⟨hbuf₀, hoffset₀⟩ := parseBody_place hbody
    obtain ⟨hbuf₁, hoffset₁⟩ := parseBody_place hmore
    have hbuf : (parseBody msg).1.buf = p := (hreached₁.headed_place).1
    have hplace : (appended msg c).parsingOffset = (parseBody msg).1.parsingOffset := hoffset₀.symm
    have hbytes : (appended msg c).buf = p ++ c := by
      change msg.buf ++ c = p ++ c
      rw [← hbuf₀, hbuf]
    rw [← hbytes, ← hbuf₁, ← hplace, ← hoffset₁] at hfound
    rw [afterRecvHeaders] at hr
    cases hparse : parseHeaders (parseBody (appended msg c)).1 with
    | error e =>
      rw [hparse] at hr
      cases hr
    | ok s =>
      obtain ⟨next, found⟩ := s
      rw [hparse] at hr
      cases found with
      | false =>
        obtain ⟨-, ⟨-, -, hnone⟩ | ⟨_, _, -, hb, -⟩⟩ := parseHeaders_cases hparse
        · rw [← not_not (a := blankLine <:+: _), ← strstr_eq_none (by decide)] at hfound
          obtain ⟨i, hi⟩ := Option.ne_none_iff_exists'.mp hfound
          exact absurd hi (hnone i)
        · cases hb
      | true =>
        have hr : (if (parseBody next).2 then
            (finish (parseBody next).1, [.afterRecvHeaders, .afterRecvMsg])
          else ((parseBody next).1, [.nextRecv, .afterRecvHeaders])) = r := Except.ok.inj hr
        rw [← hr]
        split <;> simp

theorem lineEnd_of_error {e : Fault} (hne : msg.buf ≠ []) (h : parseStartLine msg = .error e) :
    ∃ cr, LineEnd msg cr := by
  rw [parseStartLine, if_neg hne] at h
  cases hcr : memchr msg.buf (chr '\r') (msg.buf.length - 1) with
  | none =>
    rw [hcr] at h
    cases h
  | some cr =>
    rw [hcr] at h
    by_cases hlf : msg.buf[cr + 1]? = some (chr '\n')
    · exact ⟨cr, hcr, hlf⟩
    · simp only [if_neg hlf, reduceCtorEq] at h

theorem headersEnd_of_error {e : Fault} (hoffset : 2 ≤ msg.parsingOffset)
    (h : parseHeaders msg = .error e) : ∃ i, HeadersEnd msg i := by
  rw [parseHeaders, if_neg (Nat.not_lt.mpr hoffset)] at h
  cases hi : strstr (cstr (msg.buf.drop (msg.parsingOffset - 2))) (crlf ++ crlf) with
  | none =>
    rw [hi] at h
    cases h
  | some i => exact ⟨i, hi⟩

/-- Bytes that make the parsing leave its buffers do so with any others behind them. -/
theorem afterRecv_error {e : Fault} (hne : p ≠ [])
    (h : afterRecv finish (create type p) = .error e) (c : List UInt8) :
    afterRecv finish (create type (p ++ c)) = .error e := by
  have hline : ¬ (create type p).startLine = true := Bool.false_ne_true
  have hline' : ¬ (create type (p ++ c)).startLine = true := Bool.false_ne_true
  have hcreate : create type (p ++ c) = appended (create type p) c := rfl
  cases hparse : parseStartLine (create type p) with
  | error e' =>
    obtain ⟨cr, hcr⟩ := @lineEnd_of_error (create type p) e' hne hparse
    rw [afterRecv, if_neg hline, hparse] at h
    rw [afterRecv, if_neg hline', hcreate, parseStartLine_appended hcr, hparse]
    exact h
  | ok r =>
    obtain ⟨started, b⟩ := r
    cases b with
    | false =>
      rw [afterRecv, if_neg hline, hparse] at h
      cases h
    | true =>
      obtain ⟨-, hb, -⟩ | ⟨cr, hcr, hparsed⟩ := parseStartLine_cases hparse
      · cases hb
      have hparse' : parseStartLine (create type (p ++ c)) = .ok (appended started c, true) := by
        rw [hcreate, parseStartLine_appended hcr, hparse]
        rfl
      rw [afterRecv_started hparse, afterRecvHeaders] at h
      rw [afterRecv_started hparse', afterRecvHeaders]
      cases hheaders : parseHeaders started with
      | ok r =>
        rw [hheaders] at h
        cases h
      | error e' =>
        have hoffset : 2 ≤ started.parsingOffset := by
          rw [(hparsed.parsed rfl).2.2]
          omega
        obtain ⟨i, hi⟩ := headersEnd_of_error hoffset hheaders
        rw [hheaders] at h
        rw [parseHeaders_found hoffset hi, hheaders]
        exact h

/-- The end of the headers is found again after some chunk. -/
def Rescanned (type : MsgType) : List UInt8 → List (List UInt8) → Prop
  | _, [] => False
  | p, c :: chunks => RescannedAt type p c ∨ Rescanned type (p ++ c) chunks

instance decidableRescanned (type : MsgType) :
    ∀ (p : List UInt8) (chunks : List (List UInt8)), Decidable (Rescanned type p chunks)
  | _, [] => isFalse id
  | p, c :: chunks =>
    have := decidableRescanned type (p ++ c) chunks
    inferInstanceAs (Decidable (RescannedAt type p c ∨ Rescanned type (p ++ c) chunks))

/-- The message that has been received, and the event handlers that have been run. -/
def outcome (r : Msg × List (List Event)) : Msg × List Event := (r.1, handlers r.2.flatten)

/-- The chunks give the same message as one chunk, and the same handlers are run. -/
def AtOnce (finish : Msg → Msg) (type : MsgType) (chunks : List (List UInt8)) : Prop :=
  (receiveAll finish (create type []) chunks).map outcome =
    (receiveAll finish (create type []) [chunks.flatten]).map outcome

/-- No chunk comes behind a complete message. -/
def EndsLast (type : MsgType) : List UInt8 → List (List UInt8) → Prop
  | _, [] => True
  | p, c :: chunks => ¬ Complete type p ∧ EndsLast type (p ++ c) chunks

instance decidableEndsLast (type : MsgType) :
    ∀ (p : List UInt8) (chunks : List (List UInt8)), Decidable (EndsLast type p chunks)
  | _, [] => isTrue trivial
  | p, c :: chunks =>
    have := decidableEndsLast type (p ++ c) chunks
    inferInstanceAs (Decidable (¬ Complete type p ∧ EndsLast type (p ++ c) chunks))

theorem handlers_append (events events' : List Event) :
    handlers (events ++ events') = handlers events ++ handlers events' := List.filter_append _ _

theorem not_rescanned_of_error {e : Fault} (hne : p ≠ [])
    (h : afterRecv id (create type p) = .error e) : ¬ Rescanned type p chunks := by
  induction chunks generalizing p with
  | nil => exact id
  | cons c chunks ih =>
    have hnone : headed type p = none := by
      rw [headed, h]
    have hmore := afterRecv_error hne h c
    have hne' : p ++ c ≠ [] := by simp [hne]
    exact not_or.mpr ⟨not_rescannedAt hnone c, ih hne' hmore⟩

theorem error_id {e : Fault} (h : afterRecv finish (create type p) = .error e) :
    afterRecv id (create type p) = .error e := by
  cases hid : afterRecv id (create type p) with
  | error e' => cases e; cases e'; rfl
  | ok r =>
    obtain ⟨msg, events⟩ := r
    have hreached : Reached id type p msg events := reached_iff.mp hid
    cases hreached with
    | line hline => rw [reached_iff.mpr (.line hline)] at h; cases h
    | started hline hheaders => rw [reached_iff.mpr (.started hline hheaders)] at h; cases h
    | headed hline hheaders hbody =>
      rw [reached_iff.mpr (.headed hline hheaders hbody)] at h
      cases h
    | complete hline hheaders hbody =>
      rw [reached_iff.mpr (.complete hline hheaders hbody)] at h
      cases h

/-- Once headers have been found, they are announced once when all bytes come at once. -/
theorem Reached.announced (h : Reached finish type p msg [.nextRecv, .afterRecvHeaders])
    (c : List UInt8) : ∃ r, afterRecv finish (create type (p ++ c)) = .ok r ∧
      (handlers r.2).count .afterRecvHeaders = 1 := by
  cases h with
  | headed h hheaders hbody =>
    refine ⟨_, afterRecv_headed h hheaders c, ?_⟩
    split <;> rfl

theorem receiveAll_iff (h : Reached finish type p msg events) (hne : p ≠ [])
    (hno : .afterRecvMsg ∉ events) (hlast : EndsLast type p chunks) :
    ((receiveAll finish msg chunks).map fun r => (r.1, handlers events ++ handlers r.2.flatten)) =
        ((afterRecv finish (create type (p ++ chunks.flatten))).map fun r => (r.1, handlers r.2)) ↔
      ¬ Rescanned type p chunks := by
  induction chunks generalizing p msg events with
  | nil =>
    rw [List.flatten_nil, List.append_nil, reached_iff.mpr h]
    refine iff_of_true ?_ id
    simp [receiveAll, Except.map, handlers]
  | cons c chunks ih =>
    rw [receiveAll, List.flatten_cons, ← List.append_assoc, Rescanned]
    by_cases hscan : RescannedAt type p c
    · refine iff_of_false (fun heq => ?_) (fun hnot => hnot (.inl hscan))
      have hscan' := hscan
      obtain ⟨msg₀, hmsg₀, -⟩ := hscan'
      have hreached₀ := headed_iff.mp hmsg₀
      have hevents : events = [.nextRecv, .afterRecvHeaders] := by
        obtain ⟨msg₁, h₁, -⟩ := h.finished
        have hboth := (reached_iff.mpr h₁).symm.trans (reached_iff.mpr hreached₀)
        exact (Prod.mk.inj (Except.ok.inj hboth)).2
      subst hevents
      obtain ⟨r, hr, hcount⟩ := h.announced (c ++ chunks.flatten)
      rw [← List.append_assoc] at hr
      rw [hr] at heq
      cases hreceive : receive finish msg c with
      | error e =>
        rw [hreceive] at heq
        cases heq
      | ok s =>
        rw [hreceive] at heq
        cases hrest : receiveAll finish s.1 chunks with
        | error e =>
          simp only [Except.bind, hrest, Except.map, reduceCtorEq] at heq
        | ok t =>
          simp only [Except.bind, hrest, Except.map, Except.ok.injEq, Prod.mk.injEq] at heq
          have hagain : Event.afterRecvHeaders ∈ handlers s.2 :=
            List.mem_filter.mpr ⟨receive_rescanned h hscan hreceive, by decide⟩
          have hpos := List.count_pos_iff.mpr hagain
          rw [← heq.2, List.flatten_cons, handlers_append, List.count_append, List.count_append,
            show (handlers [.nextRecv, .afterRecvHeaders]).count .afterRecvHeaders = 1 from rfl]
            at hcount
          omega
    · have hstep := receive_step h hno hscan
      have hnext : ¬ (RescannedAt type p c ∨ Rescanned type (p ++ c) chunks) ↔
          ¬ Rescanned type (p ++ c) chunks := by
        rw [not_or, and_iff_right hscan]
      have hne' : p ++ c ≠ [] := by simp [hne]
      rw [hnext]
      cases hreceive : receive finish msg c with
      | error e =>
        cases honce : afterRecv finish (create type (p ++ c)) with
        | ok r =>
          rw [hreceive, honce] at hstep
          cases hstep
        | error e' =>
          rw [afterRecv_error hne' honce]
          cases e
          cases e'
          exact iff_of_true rfl (not_rescanned_of_error hne' (error_id honce))
      | ok s =>
        cases honce : afterRecv finish (create type (p ++ c)) with
        | error e' =>
          rw [hreceive, honce] at hstep
          cases hstep
        | ok r =>
          obtain ⟨next, events'⟩ := r
          rw [hreceive, honce] at hstep
          simp only [Except.map, Except.ok.injEq, Prod.mk.injEq] at hstep
          obtain ⟨hmsg, hhandlers⟩ := hstep
          have hreached : Reached finish type (p ++ c) next events' := reached_iff.mp honce
          change ((((receiveAll finish s.1 chunks).map fun t => (t.1, s.2 :: t.2)).map fun r =>
            (r.1, handlers events ++ handlers r.2.flatten)) = _) ↔ _
          rw [hmsg]
          cases chunks with
          | nil =>
            refine iff_of_true ?_ id
            rw [List.flatten_nil, List.append_nil, honce]
            simp [receiveAll, Except.map, ← hhandlers]
          | cons d chunks =>
            have hincomplete : ¬ Complete type (p ++ c) := hlast.2.1
            have hno' : .afterRecvMsg ∉ events' := mt hreached.complete_iff.mpr hincomplete
            rw [← ih hreached hne' hno' hlast.2]
            cases receiveAll finish next (d :: chunks) with
            | error e => rfl
            | ok t => simp [Except.map, handlers_append, ← hhandlers]

theorem receiveAll_single (finish : Msg → Msg) (type : MsgType) (bytes : List UInt8) :
    (receiveAll finish (create type []) [bytes]).map outcome =
      (afterRecv finish (create type bytes)).map fun r => (r.1, handlers r.2) := by
  change ((afterRecv finish (create type bytes)).bind fun r => _).map outcome = _
  cases afterRecv finish (create type bytes) with
  | error e => rfl
  | ok r => simp [Except.bind, Except.map, receiveAll, outcome]

theorem receiveAll_create_iff (hne : chunks ≠ []) (hchunks : ∀ c ∈ chunks, c ≠ [])
    (hlast : EndsLast type [] chunks) :
    (receiveAll finish (create type []) chunks).map outcome =
        ((afterRecv finish (create type chunks.flatten)).map fun r => (r.1, handlers r.2)) ↔
      ¬ Rescanned type [] chunks := by
  obtain ⟨c, chunks, rfl⟩ := List.exists_cons_of_ne_nil hne
  have hc : c ≠ [] := hchunks c (.head _)
  have hfirst : receive finish (create type []) c = afterRecv finish (create type c) := rfl
  have hnone : headed type [] = none := rfl
  have hstart : ¬ (RescannedAt type [] c ∨ Rescanned type ([] ++ c) chunks) ↔
      ¬ Rescanned type c chunks := by
    rw [not_or, and_iff_right (not_rescannedAt hnone c), List.nil_append]
  rw [Rescanned, hstart, receiveAll, List.flatten_cons, hfirst]
  cases honce : afterRecv finish (create type c) with
  | error e =>
    rw [afterRecv_error hc honce]
    exact iff_of_true rfl (not_rescanned_of_error hc (error_id honce))
  | ok r =>
    obtain ⟨msg, events⟩ := r
    have hreached : Reached finish type c msg events := reached_iff.mp honce
    cases chunks with
    | nil =>
      refine iff_of_true ?_ id
      rw [List.flatten_nil, List.append_nil, honce]
      simp [receiveAll, Except.bind, Except.map, outcome]
    | cons d chunks =>
      have hincomplete : ¬ Complete type c := hlast.2.1
      have hno : .afterRecvMsg ∉ events := mt hreached.complete_iff.mpr hincomplete
      have hlast' : EndsLast type c (d :: chunks) := hlast.2
      rw [← receiveAll_iff hreached hc hno hlast']
      change ((receiveAll finish msg (d :: chunks)).map fun t => (t.1, events :: t.2)).map outcome =
        _ ↔ _
      cases receiveAll finish msg (d :: chunks) with
      | error e => rfl
      | ok t => simp [Except.map, outcome, handlers_append]

/-- What a server makes of the chunks of a request and of all its bytes in one. -/
theorem server_receiveAll_iff (reqHandlers : ℕ) (hne : chunks ≠ []) (hchunks : ∀ c ∈ chunks, c ≠ [])
    (hlast : EndsLast .request [] chunks) :
    (HttpServer.receiveAll reqHandlers (create .request []) chunks).map outcome =
        (HttpServer.receiveAll reqHandlers (create .request []) [chunks.flatten]).map outcome ↔
      ¬ Rescanned .request [] chunks := by
  rw [server_receiveAll, server_receiveAll, receiveAll_single]
  exact receiveAll_create_iff hne hchunks hlast

/-- A message that ends with the last chunk is received as if it had come in one chunk if and only
if the end of the headers is not found again before its body is complete. -/
theorem atOnce_iff (hne : chunks ≠ []) (hchunks : ∀ c ∈ chunks, c ≠ [])
    (hlast : EndsLast type [] chunks) :
    AtOnce finish type chunks ↔ ¬ Rescanned type [] chunks := by
  rw [AtOnce, receiveAll_single]
  exact receiveAll_create_iff hne hchunks hlast

/-- A response in three chunks, the second of which ends inside of the content. -/
def responseChunks : List (List UInt8) :=
  [text "HTTP/1.1 200 OK\r\nContent-", text "Length: 4\r\n\r\na\r", text "\nb"]

theorem atOnce_responseChunks : AtOnce id .response responseChunks :=
  (atOnce_iff (by decide) (by decide) (by decide +kernel)).mpr (by decide +kernel)

theorem afterRecvHeaders_events (h : afterRecvHeaders finish msg = .ok (msg', events)) :
    .nextRecv ∈ events ↔ .afterRecvMsg ∉ events := by
  rw [afterRecvHeaders] at h
  cases hheaders : parseHeaders msg with
  | error e =>
    rw [hheaders] at h
    cases h
  | ok r =>
    rw [hheaders] at h
    have h : (if r.2 then
        let b := parseBody r.1
        if b.2 then (finish b.1, [.afterRecvHeaders, .afterRecvMsg])
        else (b.1, [.nextRecv, .afterRecvHeaders])
      else (r.1, [.nextRecv])) = (msg', events) := Except.ok.inj h
    split at h
    · simp only at h
      split at h <;>
      · rw [← (Prod.mk.inj h).2]
        decide
    · rw [← (Prod.mk.inj h).2]
      decide

theorem afterRecvStartLine_events (h : afterRecvStartLine finish msg = .ok (msg', events)) :
    .nextRecv ∈ events ↔ .afterRecvMsg ∉ events := by
  rw [afterRecvStartLine] at h
  split at h
  · simp only at h
    split at h
    · rw [← (Prod.mk.inj (Except.ok.inj h)).2]
      decide
    · exact afterRecvHeaders_events h
  · exact afterRecvHeaders_events h

theorem afterRecv_events (h : afterRecv finish msg = .ok (msg', events)) :
    .nextRecv ∈ events ↔ .afterRecvMsg ∉ events := by
  rw [afterRecv] at h
  split at h
  · exact afterRecvStartLine_events h
  · cases hparse : parseStartLine msg with
    | error e =>
      rw [hparse] at h
      cases h
    | ok r =>
      rw [hparse] at h
      change (if r.2 then afterRecvStartLine finish r.1 else .ok (r.1, [.nextRecv])) = _ at h
      split at h
      · exact afterRecvStartLine_events h
      · rw [← (Prod.mk.inj (Except.ok.inj h)).2]
        decide

/-- Bytes that make a message, none of whose parts is one or has another end of the headers. -/
structure Sendable (type : MsgType) (bytes : List UInt8) : Prop where
  complete : Complete type bytes
  minimal : ∀ p, p <+: bytes → p ≠ bytes → ¬ Complete type p
  once : ∀ p c, p ++ c <+: bytes → ¬ RescannedAt type p c

/-- What has been reached after a part of a message. -/
inductive Receiving (finish : Msg → Msg) (type : MsgType) : List UInt8 → Msg → Prop
  | empty : Receiving finish type [] (create type [])
  | part {p : List UInt8} {msg : Msg} {events : List Event} (hne : p ≠ [])
    (h : Reached finish type p msg events) (hno : .afterRecvMsg ∉ events) :
    Receiving finish type p msg

theorem complete_ne_nil (h : Complete type bytes) : bytes ≠ [] := by
  rintro rfl
  cases h

theorem Sendable.reached (hs : Sendable type bytes) (finish : Msg → Msg) (hne : p ≠ [])
    (hp : p <+: bytes) : ∃ msg events, Reached finish type p msg events := by
  cases honce : afterRecv finish (create type p) with
  | ok r => exact ⟨r.1, r.2, reached_iff.mp honce⟩
  | error e =>
    obtain ⟨r, rfl⟩ := hp
    have hcomplete := hs.complete
    rw [Complete, afterRecv_error hne (error_id honce)] at hcomplete
    cases hcomplete

/-- A chunk of a message, from what has been reached before, is received as if all had come at
once. -/
theorem Sendable.receive (hs : Sendable type bytes) (h : Receiving finish type p msg)
    (hc : c ≠ []) (hp : p ++ c <+: bytes) : ∃ msg' events events',
      HttpReceive.receive finish msg c = .ok (msg', events) ∧
        Reached finish type (p ++ c) msg' events' ∧
        (.afterRecvMsg ∈ events ↔ .afterRecvMsg ∈ events') := by
  have hne : p ++ c ≠ [] := by simp [hc]
  obtain ⟨msg', events', hreached⟩ := hs.reached finish hne hp
  cases h with
  | empty =>
    exact ⟨msg', events', events', reached_iff.mpr hreached, hreached, Iff.rfl⟩
  | @part _ _ events hp' h hno =>
    have hstep := receive_step h hno (hs.once p c hp)
    rw [reached_iff.mpr hreached] at hstep
    cases hreceive : HttpReceive.receive finish msg c with
    | error e =>
      rw [hreceive] at hstep
      cases hstep
    | ok r =>
      obtain ⟨next, events₁⟩ := r
      rw [hreceive] at hstep
      simp only [Except.map, Except.ok.injEq, Prod.mk.injEq] at hstep
      obtain ⟨rfl, hhandlers⟩ := hstep
      refine ⟨next, events₁, events', rfl, hreached, ?_⟩
      have hmem : ∀ l : List Event, .afterRecvMsg ∈ l ↔ .afterRecvMsg ∈ handlers l := fun l => by
        simp [handlers]
      rw [hmem events₁, hmem events', ← hhandlers, List.mem_append,
        or_iff_right (mt (hmem events).mpr hno)]

theorem Sendable.receive_part (hs : Sendable type bytes) (h : Receiving finish type p msg)
    (hc : c ≠ []) (hp : p ++ c <+: bytes) (hne : p ++ c ≠ bytes) : ∃ msg' events,
      HttpReceive.receive finish msg c = .ok (msg', events) ∧
        Receiving finish type (p ++ c) msg' ∧ .nextRecv ∈ events ∧ .afterRecvMsg ∉ events := by
  obtain ⟨msg', events, events', hreceive, hreached, hcomplete⟩ := hs.receive h hc hp
  have hno' : .afterRecvMsg ∉ events' := mt hreached.complete_iff.mpr (hs.minimal _ hp hne)
  have hno : .afterRecvMsg ∉ events := mt hcomplete.mp hno'
  have hpart : p ++ c ≠ [] := by simp [hc]
  exact ⟨msg', events, hreceive, .part hpart hreached hno', (afterRecv_events hreceive).mpr hno,
    hno⟩

theorem Sendable.receive_last (hs : Sendable type bytes) (h : Receiving finish type p msg)
    (hc : c ≠ []) (hp : p ++ c = bytes) : ∃ msg' events,
      HttpReceive.receive finish msg c = .ok (msg', events) ∧
        Reached finish type bytes msg' [.afterRecvHeaders, .afterRecvMsg] ∧
        .nextRecv ∉ events ∧ .afterRecvMsg ∈ events := by
  obtain ⟨msg', events, events', hreceive, hreached, hcomplete⟩ :=
    hs.receive h hc (hp ▸ List.prefix_refl _)
  rw [hp] at hreached
  have hmem : .afterRecvMsg ∈ events' := hreached.complete_iff.mp hs.complete
  have hlast : .afterRecvMsg ∈ events := hcomplete.mpr hmem
  refine ⟨msg', events, hreceive, ?_, mt (afterRecv_events hreceive).mp (not_not.mpr hlast), hlast⟩
  cases hreached with
  | complete hline hheaders hbody => exact .complete hline hheaders hbody
  | line | started | headed => simp at hmem

end Libuo.HttpReceive
