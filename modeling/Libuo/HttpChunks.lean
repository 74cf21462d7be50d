import Libuo.HttpRequests

/-!
# Requests in chunks

A request is received in chunks. When its headers have been found and its body is still
incomplete, every further chunk makes the server look for the end of the headers again,
now in the body.
-/

namespace Libuo.HttpChunks
open CStrings CText HttpMsg HttpHeaders HttpStartLine HttpServer HttpRequests

/-- The parts of a request that its handlers use. -/
def SameRequest (req req' : Msg) : Prop :=
  req.method = req'.method ∧ req.uri = req'.uri ∧ req.ver = req'.ver ∧
    req.versionCrlf = req'.versionCrlf ∧ req.headers = req'.headers ∧ req.body = req'.body ∧
    req.bodyLen = req'.bodyLen

/-- `after_recv_msg` is raised once, by the last receive, and `after_recv_headers` once. -/
def RaisedOnce (events : List (List Event)) : Prop :=
  events.flatten.count .afterRecvMsg = 1 ∧ .afterRecvMsg ∈ events.getLastD [] ∧
    events.flatten.count .afterRecvHeaders = 1

/-- The request is received in chunks as it is in one. -/
def Correct (reqHandlers : ℕ) (r : Request) (chunks : List (List UInt8)) : Prop :=
  ∃ req events whole events',
    receiveAll reqHandlers (create .request []) chunks = .ok (req, events) ∧
    receiveAll reqHandlers (create .request []) [r.bytes] = .ok (whole, events') ∧
    SameRequest req whole ∧ RaisedOnce events

/-- There is another empty line behind the headers, or the first bytes of the body make one with
the end of the headers. -/
def SecondEnd (r : Request) (received : List UInt8) : Prop :=
  blankLine <:+: crlf ++ cstr (received.drop r.head.length)

/-- The headers are complete before the last two chunks, and there is another empty line before
the last one. -/
def Rescanned (r : Request) (chunks : List (List UInt8)) : Prop :=
  r.head.length ≤ chunks.dropLast.dropLast.flatten.length ∧ SecondEnd r chunks.dropLast.flatten

/-- The request may be without a body. -/
def Bodyless (r : Request) : Prop :=
  methodOf r.method ∈ [some .get, some .head, some .delete, some .connect, some .trace]

/-- The version is known, and either the content length is read, and the body is not scanned for
the end of the headers; or it is not read, but not needed, and the headers end in the last
chunk. -/
def Receivable (r : Request) (chunks : List (List UInt8)) : Prop :=
  verOf (lastChar r.version) ≠ none ∧
    if Even (blankRun r.before) then ¬ Rescanned r chunks
    else Bodyless r ∧ chunks.dropLast.flatten.length < r.head.length

instance (r : Request) (received : List UInt8) : Decidable (SecondEnd r received) :=
  inferInstanceAs (Decidable (blankLine <:+: crlf ++ cstr (received.drop r.head.length)))

instance (r : Request) (chunks : List (List UInt8)) : Decidable (Rescanned r chunks) :=
  inferInstanceAs (Decidable (_ ∧ _))

instance (r : Request) : Decidable (Bodyless r) :=
  inferInstanceAs (Decidable (methodOf r.method ∈ _))

instance (r : Request) (chunks : List (List UInt8)) : Decidable (Receivable r chunks) :=
  inferInstanceAs (Decidable (_ ∧ ite _ _ _))

variable {reqHandlers : ℕ} {r : Request} {ver : Ver} {p c : List UInt8}
  {chunks before after : List (List UInt8)} {req req' : Msg} {events : List Event}
  {all : List (List Event)}

theorem early_nil (r : Request) (ver : Ver) : r.early ver [] = create .request [] :=
  if_pos (Nat.succ_pos _)

theorem receive_headers_short (hver : verOf (lastChar r.version) = some ver)
    (hp : p ++ c <+: r.bytes) (hne : c ≠ []) (hlen : (p ++ c).length < r.head.length) :
    receive reqHandlers (r.early ver p) c = .ok (r.early ver (p ++ c), [.nextRecv]) := by
  by_cases hline : (p ++ c).length < r.line.length + 2
  · have hline' : p.length < r.line.length + 2 := by
      rw [List.length_append] at hline
      omega
    rw [Request.early, if_pos hline', Request.early, if_pos hline]
    exact afterRecv_short hp (by simp [hne]) hline
  · rw [receive_early hver hp (Nat.le_of_not_lt hline), afterRecvHeaders,
      parseHeaders_short hp (Nat.le_of_not_lt hline) hlen, Request.early, if_neg hline]
    rfl

/-- The receives before the end of the headers. -/
theorem receiveAll_headers_short (reqHandlers : ℕ) (hver : verOf (lastChar r.version) = some ver)
    (hne : ∀ c ∈ chunks, c ≠ []) (hp : p ++ chunks.flatten <+: r.bytes)
    (hlen : (p ++ chunks.flatten).length < r.head.length) :
    receiveAll reqHandlers (r.early ver p) chunks =
      .ok (r.early ver (p ++ chunks.flatten), chunks.map fun _ => [.nextRecv]) := by
  induction chunks generalizing p with
  | nil => rw [List.flatten_nil, List.append_nil]; rfl
  | cons c chunks ih =>
    rw [List.flatten_cons, ← List.append_assoc] at hp hlen
    have hp' : p ++ c <+: r.bytes := (List.prefix_append _ _).trans hp
    have hlen' : (p ++ c).length < r.head.length := by
      rw [List.length_append] at hlen
      omega
    rw [receiveAll_cons (receive_headers_short hver hp' (hne c (.head _)) hlen'),
      ih (fun c hc => hne c (.tail _ hc)) hp hlen, List.flatten_cons, List.append_assoc]
    rfl

/-- The receive that gives the end of the headers. -/
theorem receive_headers (hver : verOf (lastChar r.version) = some ver) (hp : p ++ c <+: r.bytes)
    (hlen : r.head.length ≤ (p ++ c).length) :
    receive reqHandlers (r.early ver p) c =
      .ok (if (parseBody (r.headed ver (p ++ c))).2 then
          (fullyParsed reqHandlers (parseBody (r.headed ver (p ++ c))).1,
            [.afterRecvHeaders, .afterRecvMsg])
        else ((parseBody (r.headed ver (p ++ c))).1, [.nextRecv, .afterRecvHeaders])) := by
  have hhead := length_head r
  rw [receive_early hver hp (by omega), afterRecvHeaders, parseHeaders_received hp hlen]
  rfl

theorem exists_chunk {n : ℕ} (hpos : 0 < n) (hn : n ≤ chunks.flatten.length) :
    ∃ before c after, chunks = before ++ c :: after ∧ before.flatten.length < n ∧
      n ≤ (before.flatten ++ c).length := by
  induction chunks generalizing n with
  | nil => exact absurd hpos (Nat.not_lt.mpr hn)
  | cons c chunks ih =>
    rw [List.flatten_cons, List.length_append] at hn
    by_cases hc : n ≤ c.length
    · exact ⟨[], c, chunks, rfl, hpos, hc⟩
    · obtain ⟨before, d, after, rfl, hlt, hle⟩ := ih (n := n - c.length) (by omega) (by omega)
      rw [List.length_append] at hle
      refine ⟨c :: before, d, after, rfl, ?_, ?_⟩ <;>
      · simp only [List.flatten_cons, List.length_append]
        omega

/-- Where the server looks for the end of the headers again. -/
theorem drop_headed (hp : p <+: r.bytes) (hlen : r.head.length ≤ p.length) :
    cstr (p.drop (r.head.length - 2)) = crlf ++ cstr (p.drop r.head.length) := by
  have hhead : r.head <+: p :=
    List.prefix_of_prefix_length_le (List.prefix_append _ _) hp hlen
  obtain ⟨rest, rfl⟩ := hhead
  have hend : r.head = (r.line ++ (block r.lines ++ crlf)) ++ crlf := by
    rw [Request.head, blankLine, List.append_assoc, List.append_assoc]
  have hdrop : (r.head ++ rest).drop (r.head.length - 2) = crlf ++ rest := by
    rw [hend, List.append_assoc _ crlf rest]
    refine List.drop_left' ?_
    simp only [List.length_append, show crlf.length = 2 from rfl]
    omega
  rw [hdrop, List.drop_left, cstr_append (by decide)]

theorem blankLine_ne_nil : blankLine ≠ [] := by decide

theorem parseHeaders_headed (hp : p <+: r.bytes) (hlen : r.head.length ≤ p.length)
    (hend : ¬ SecondEnd r p) : parseHeaders (r.headed ver p) = .ok (r.headed ver p, false) := by
  have hhead := length_head r
  have hoffset : ¬ (r.headed ver p).parsingOffset < 2 := by
    change ¬ r.head.length < 2
    omega
  have hnone : strstr (cstr ((r.headed ver p).buf.drop ((r.headed ver p).parsingOffset - 2)))
      (crlf ++ crlf) = none := by
    change strstr (cstr (p.drop (r.head.length - 2))) blankLine = none
    rw [drop_headed hp hlen]
    exact (strstr_eq_none blankLine_ne_nil).mpr hend
  rw [parseHeaders, if_neg hoffset, hnone]

/-- Without a result, the message is as before, and there is no empty line. -/
theorem parseHeaders_false {msg msg' : Msg} (h : parseHeaders msg = .ok (msg', false)) :
    msg' = msg ∧ ¬ blankLine <:+: cstr (msg.buf.drop (msg.parsingOffset - 2)) := by
  rw [parseHeaders] at h
  split at h
  · cases h
  · cases hs : strstr (cstr (msg.buf.drop (msg.parsingOffset - 2))) (crlf ++ crlf) with
    | none =>
      simp only [hs] at h
      exact ⟨(Prod.mk.inj (Except.ok.inj h)).1.symm, (strstr_eq_none blankLine_ne_nil).mp hs⟩
    | some i =>
      simp only [hs] at h
      split at h
      · simp at h
      · obtain ⟨p, hp⟩ : ∃ p, p = (msg.buf.drop msg.parsingOffset).take
          (msg.parsingOffset - 2 + i - msg.parsingOffset) := ⟨_, rfl⟩
        rw [← hp] at h
        cases hloop : parseHeaderLoop p.length (strtok (text ":") p) msg.headers with
        | error e =>
          rw [hloop] at h
          cases h
        | ok headers =>
          rw [hloop] at h
          simp [Except.map] at h

/-- Either headers are announced, or nothing is found. -/
theorem afterRecvHeaders_cases (h : afterRecvHeaders reqHandlers req = .ok (req', events)) :
    .afterRecvHeaders ∈ events ∨ events = [.nextRecv] ∧ req' = req ∧
      ¬ blankLine <:+: cstr (req.buf.drop (req.parsingOffset - 2)) := by
  rw [afterRecvHeaders] at h
  cases hr : parseHeaders req with
  | error e =>
    rw [hr] at h
    exact nomatch h
  | ok res =>
    obtain ⟨msg, found⟩ := res
    rw [hr] at h
    cases found with
    | false =>
      obtain ⟨rfl, rfl⟩ := Prod.mk.inj (Except.ok.inj h)
      exact .inr ⟨rfl, parseHeaders_false hr⟩
    | true =>
      have h : (if (parseBody msg).2 then
          (fullyParsed reqHandlers (parseBody msg).1, [.afterRecvHeaders, .afterRecvMsg])
        else ((parseBody msg).1, [.nextRecv, .afterRecvHeaders])) = (req', events) :=
        Except.ok.inj h
      left
      split at h <;>
      · obtain ⟨-, rfl⟩ := Prod.mk.inj h
        simp

/-- With headers, a receive looks for the end of the body first. -/
theorem receive_headed : receive reqHandlers (r.headed ver p) c =
    if (parseBody (r.headed ver (p ++ c))).2 then
      .ok (fullyParsed reqHandlers (parseBody (r.headed ver (p ++ c))).1, [.afterRecvMsg])
    else afterRecvHeaders reqHandlers (parseBody (r.headed ver (p ++ c))).1 := rfl

theorem receive_body_last (hs : swallowed r.before = false) (hp : p ++ c = r.bytes) :
    receive reqHandlers (r.headed ver p) c =
      .ok (fullyParsed reqHandlers (r.bodied ver), [.afterRecvMsg]) := by
  rw [receive_headed, hp, parseBody_whole hs, if_pos rfl]

theorem receive_body_part (hs : swallowed r.before = false) (hlen : r.head.length ≤ p.length)
    (hlt : (p ++ c).length < r.bytes.length) : receive reqHandlers (r.headed ver p) c =
      afterRecvHeaders reqHandlers (r.headed ver (p ++ c)) := by
  have hlen' : r.head.length ≤ (p ++ c).length := by
    rw [List.length_append]
    omega
  rw [receive_headed, parseBody_part hs hlen' hlt, if_neg Bool.false_ne_true]

theorem SecondEnd.append (h : SecondEnd r p) (c : List UInt8) : SecondEnd r (p ++ c) := by
  rw [SecondEnd, List.drop_append]
  exact h.trans ((List.prefix_append_right_inj _).mpr <| cstr_prefix _ _).isInfix

/-- Before the last chunk, the request is incomplete. -/
theorem length_lt_of_rest (hp : p ++ chunks.flatten = r.bytes) (hchunks : chunks ≠ [])
    (hne : ∀ c ∈ chunks, c ≠ []) : p.length < r.bytes.length := by
  obtain ⟨d, chunks, rfl⟩ := List.exists_cons_of_ne_nil hchunks
  have hpos := List.length_pos_of_ne_nil (hne d (.head _))
  have hlen := congrArg List.length hp
  rw [List.length_append, List.flatten_cons, List.length_append] at hlen
  omega

/-- The receives after the end of the headers, when it is not found again. -/
theorem receiveAll_body (hs : swallowed r.before = false) (hlen : r.head.length ≤ p.length)
    (hp : p ++ chunks.flatten = r.bytes) (hchunks : chunks ≠ []) (hne : ∀ c ∈ chunks, c ≠ [])
    (hend : 2 ≤ chunks.length → ¬ SecondEnd r (p ++ chunks.dropLast.flatten)) :
    receiveAll reqHandlers (r.headed ver p) chunks = .ok (fullyParsed reqHandlers (r.bodied ver),
      (chunks.dropLast.map fun _ => [.nextRecv]) ++ [[.afterRecvMsg]]) := by
  induction chunks generalizing p with
  | nil => exact absurd rfl hchunks
  | cons c chunks ih =>
    rw [List.flatten_cons, ← List.append_assoc] at hp
    by_cases hlast : chunks = []
    · subst hlast
      rw [receiveAll_cons (receive_body_last hs (by simpa using hp))]
      rfl
    · have hne' : ∀ c ∈ chunks, c ≠ [] := fun c hc => hne c (.tail _ hc)
      have hlen' : r.head.length ≤ (p ++ c).length := by
        rw [List.length_append]
        omega
      have hend' : ¬ SecondEnd r ((p ++ c) ++ chunks.dropLast.flatten) := by
        have := hend (Nat.succ_le_succ (List.length_pos_of_ne_nil hlast))
        rwa [List.dropLast_cons_of_ne_nil hlast, List.flatten_cons, ← List.append_assoc] at this
      have hreceive : receive reqHandlers (r.headed ver p) c =
          .ok (r.headed ver (p ++ c), [.nextRecv]) := by
        rw [receive_body_part hs hlen (length_lt_of_rest hp hlast hne'), afterRecvHeaders,
          parseHeaders_headed ⟨_, hp⟩ hlen' fun h => hend' (h.append _)]
        rfl
      rw [receiveAll_cons hreceive, ih hlen' hp hlast hne' fun _ => hend',
        List.dropLast_cons_of_ne_nil hlast]
      rfl

/-- What the first of several receives has done. -/
theorem receiveAll_cons_ok (h : receiveAll reqHandlers req (c :: chunks) = .ok (req', all)) :
    ∃ req₁ events rest, receive reqHandlers req c = .ok (req₁, events) ∧
      receiveAll reqHandlers req₁ chunks = .ok (req', rest) ∧ all = events :: rest := by
  rw [receiveAll] at h
  cases hr : receive reqHandlers req c with
  | error e =>
    rw [hr] at h
    cases h
  | ok res =>
    rw [hr] at h
    cases hs : receiveAll reqHandlers res.1 chunks with
    | error e =>
      rw [Except.bind, hs] at h
      cases h
    | ok rest =>
      rw [Except.bind, hs] at h
      obtain ⟨rfl, rfl⟩ := Prod.mk.inj (Except.ok.inj h)
      exact ⟨res.1, res.2, rest.2, rfl, hs, rfl⟩

/-- The receives after the end of the headers, when it is found again. -/
theorem receiveAll_rescan (hs : swallowed r.before = false) (hlen : r.head.length ≤ p.length)
    (hp : p ++ chunks.flatten = r.bytes) (hne : ∀ c ∈ chunks, c ≠ [])
    (hchunks : 2 ≤ chunks.length) (hend : SecondEnd r (p ++ chunks.dropLast.flatten))
    (h : receiveAll reqHandlers (r.headed ver p) chunks = .ok (req', all)) :
    .afterRecvHeaders ∈ all.flatten := by
  induction chunks generalizing p all with
  | nil => exact absurd hchunks (Nat.not_succ_le_zero 1)
  | cons c chunks ih =>
    have hlast : chunks ≠ [] := by
      rintro rfl
      exact absurd hchunks (Nat.lt_irrefl 1)
    rw [List.flatten_cons, ← List.append_assoc] at hp
    rw [List.dropLast_cons_of_ne_nil hlast, List.flatten_cons, ← List.append_assoc] at hend
    have hne' : ∀ c ∈ chunks, c ≠ [] := fun c hc => hne c (.tail _ hc)
    have hlen' : r.head.length ≤ (p ++ c).length := by
      rw [List.length_append]
      omega
    obtain ⟨req₁, events, rest, hreceive, hrest, rfl⟩ := receiveAll_cons_ok h
    rw [receive_body_part hs hlen (length_lt_of_rest hp hlast hne')] at hreceive
    rw [List.flatten_cons]
    by_cases hfound : SecondEnd r (p ++ c)
    · refine List.mem_append_left _ ((afterRecvHeaders_cases hreceive).resolve_right ?_)
      rintro ⟨-, -, hnone⟩
      change ¬ blankLine <:+: cstr ((p ++ c).drop (r.head.length - 2)) at hnone
      rw [drop_headed ⟨_, hp⟩ hlen'] at hnone
      exact hnone hfound
    · rw [afterRecvHeaders, parseHeaders_headed ⟨_, hp⟩ hlen' hfound] at hreceive
      obtain ⟨rfl, rfl⟩ := Prod.mk.inj (Except.ok.inj hreceive)
      have hmore : 2 ≤ chunks.length := by
        by_contra hless
        obtain ⟨d, hd⟩ := List.length_eq_one_iff.mp
          (Nat.le_antisymm (Nat.lt_succ_iff.mp (Nat.lt_of_not_le hless))
            (List.length_pos_of_ne_nil hlast))
        rw [hd, List.dropLast_singleton, List.flatten_nil, List.append_nil] at hend
        exact hfound hend
      exact List.mem_append_right _ (ih hlen' hp hne' hmore hend hrest)

/-- The headers are parsed, and there is neither a content length nor a method without a body. -/
def Stuck (req : Msg) : Prop :=
  req.startLine = true ∧ req.hasHeaders = true ∧
    getHeader req (text "content-length") = none ∧ needsNoBody req = false

theorem receive_stuck (hstuck : Stuck req)
    (h : receive reqHandlers req c = .ok (req', events)) :
    .afterRecvHeaders ∈ events ∨ events = [.nextRecv] ∧ Stuck req' := by
  obtain ⟨hstart, hheaders, hlength, hbody⟩ := hstuck
  obtain ⟨next, hnext⟩ : ∃ next, next = { req with buf := req.buf ++ c } := ⟨_, rfl⟩
  have hinvalid : parseBody next = invalid next := by
    have hlength' : getHeader next (text "content-length") = none := hnext ▸ hlength
    have hbody' : needsNoBody next = false := hnext ▸ hbody
    rw [parseBody, hlength']
    simp only [hbody', Bool.false_eq_true, if_false]
  have hstep : receive reqHandlers req c = afterRecvHeaders reqHandlers (invalid next).1 := by
    rw [receive, ← hnext, afterRecv, if_pos (hnext ▸ hstart), afterRecvStartLine,
      if_pos (hnext ▸ hheaders), hinvalid]
    rfl
  rw [hstep] at h
  rcases afterRecvHeaders_cases h with hmem | ⟨hevents, hreq', -⟩
  · exact .inl hmem
  · refine .inr ⟨hevents, ?_⟩
    rw [hreq', hnext]
    exact ⟨hstart, hheaders, hlength, hbody⟩

theorem receiveAll_stuck (hstuck : Stuck req)
    (h : receiveAll reqHandlers req chunks = .ok (req', all)) :
    .afterRecvHeaders ∈ all.flatten ∨ .afterRecvMsg ∉ all.flatten := by
  induction chunks generalizing req all with
  | nil =>
    obtain ⟨-, rfl⟩ := Prod.mk.inj (Except.ok.inj h)
    exact .inr (by simp)
  | cons c chunks ih =>
    obtain ⟨req₁, events, rest, hreceive, hrest, rfl⟩ := receiveAll_cons_ok h
    rw [List.flatten_cons]
    rcases receive_stuck hstuck hreceive with hmem | ⟨rfl, hstuck'⟩
    · exact .inl (List.mem_append_left _ hmem)
    · refine (ih hstuck' hrest).imp (List.mem_append_right _) fun hnot hmem => ?_
      rcases List.mem_append.mp hmem with hmem | hmem
      · simp at hmem
      · exact hnot hmem

/-- With an unknown version, nothing is parsed. -/
theorem receiveAll_unknown (hver : verOf (lastChar r.version) = none)
    (hne : ∀ c ∈ chunks, c ≠ []) (hreq : req.type = .request ∧ req.startLine = false)
    (hp : req.buf ++ chunks.flatten <+: r.bytes)
    (h : receiveAll reqHandlers req chunks = .ok (req', all)) :
    .afterRecvMsg ∉ all.flatten := by
  induction chunks generalizing req all with
  | nil =>
    obtain ⟨-, rfl⟩ := Prod.mk.inj (Except.ok.inj h)
    simp
  | cons c chunks ih =>
    obtain ⟨req₁, events, rest, hreceive, hrest, rfl⟩ := receiveAll_cons_ok h
    rw [List.flatten_cons, ← List.append_assoc] at hp
    have hpc : req.buf ++ c <+: r.bytes := (List.prefix_append _ _).trans hp
    obtain ⟨next, hnext⟩ : ∃ next, next = { req with buf := req.buf ++ c } := ⟨_, rfl⟩
    have hbuf : next.buf = req.buf ++ c := by rw [hnext]
    have hparse : ∃ msg, parseStartLine next = .ok (msg, false) ∧ msg.type = .request ∧
        msg.startLine = false ∧ msg.buf = req.buf ++ c := by
      by_cases hline : next.buf.length < r.line.length + 2
      · refine ⟨next, parseStartLine_short (hbuf ▸ hpc) ?_ hline, ?_⟩
        · simp [hbuf, hne c (.head _)]
        · exact hnext ▸ ⟨hreq.1, hreq.2, rfl⟩
      · have hreceived := received_eq (hbuf ▸ hpc) (Nat.le_of_not_lt hline)
        have hline := parseStartLine_eq (hnext ▸ hreq.1) hreceived
        rw [hver] at hline
        exact ⟨_, hline, hnext ▸ ⟨hreq.1, hreq.2, rfl⟩⟩
    obtain ⟨msg, hmsg, htype, hstart, hmsgbuf⟩ := hparse
    have hstep : receive reqHandlers req c = .ok (msg, [.nextRecv]) := by
      have hno : ¬ next.startLine = true := by simp [hnext, hreq.2]
      rw [receive, ← hnext, afterRecv, if_neg hno, hmsg]
      rfl
    rw [hstep] at hreceive
    obtain ⟨rfl, rfl⟩ := Prod.mk.inj (Except.ok.inj hreceive)
    have hrest' := ih (fun c hc => hne c (.tail _ hc)) ⟨htype, hstart⟩ (hmsgbuf ▸ hp) hrest
    rw [List.flatten_cons]
    simpa using hrest'

theorem length_events (h : receiveAll reqHandlers req chunks = .ok (req', all)) :
    all.length = chunks.length := by
  induction chunks generalizing req all with
  | nil =>
    obtain ⟨-, rfl⟩ := Prod.mk.inj (Except.ok.inj h)
    rfl
  | cons c chunks ih =>
    obtain ⟨req₁, events, rest, -, hrest, rfl⟩ := receiveAll_cons_ok h
    rw [List.length_cons, List.length_cons, ih hrest]

/-- Receives that only request the next one. -/
def quiet (chunks : List (List UInt8)) : List (List Event) := chunks.map fun _ => [.nextRecv]

theorem count_quiet {e : Event} (he : e ≠ .nextRecv) (chunks : List (List UInt8)) :
    (quiet chunks).flatten.count e = 0 := by
  refine List.count_eq_zero.mpr fun hmem => ?_
  obtain ⟨events, hevents, hmem⟩ := List.mem_flatten.mp hmem
  obtain ⟨-, -, rfl⟩ := List.mem_map.mp hevents
  exact he (List.mem_singleton.mp hmem)

theorem raisedOnce_quiet (hall : all ≠ []) :
    RaisedOnce (quiet chunks ++ all) ↔ RaisedOnce all := by
  have hlast : (quiet chunks ++ all).getLastD [] = all.getLastD [] := by
    rw [List.getLastD_eq_getLast?, List.getLastD_eq_getLast?, List.getLast?_append_of_ne_nil _ hall]
  rw [RaisedOnce, RaisedOnce, hlast, List.flatten_append, List.count_append, List.count_append,
    count_quiet (by decide), count_quiet (by decide), Nat.zero_add, Nat.zero_add]

theorem not_raisedOnce_of_mem_headers (hmem : .afterRecvHeaders ∈ events)
    (hmem' : .afterRecvHeaders ∈ all.flatten) : ¬ RaisedOnce (events :: all) := by
  rintro ⟨-, -, hcount⟩
  have hpos := List.count_pos_iff.mpr hmem
  have hpos' := List.count_pos_iff.mpr hmem'
  rw [List.flatten_cons, List.count_append] at hcount
  omega

theorem not_raisedOnce_of_mem_msg (hmem : .afterRecvMsg ∈ events) (hall : all ≠ []) :
    ¬ RaisedOnce (events :: all) := by
  rintro ⟨hcount, hlast, -⟩
  have hmem' : .afterRecvMsg ∈ all.flatten := by
    rw [List.getLastD_cons, List.getLastD_eq_getLast?, List.getLast?_eq_some_getLast hall] at hlast
    exact List.mem_flatten.mpr ⟨_, List.getLast_mem hall, hlast⟩
  have hpos := List.count_pos_iff.mpr hmem
  have hpos' := List.count_pos_iff.mpr hmem'
  rw [List.flatten_cons, List.count_append] at hcount
  omega

theorem not_raisedOnce_of_not_mem (h : .afterRecvMsg ∉ all.flatten) : ¬ RaisedOnce all := by
  rintro ⟨hcount, -, -⟩
  rw [List.count_eq_zero.mpr h] at hcount
  exact Nat.zero_ne_one hcount

theorem raisedOnce_single : RaisedOnce [[.afterRecvHeaders, .afterRecvMsg]] :=
  ⟨by decide, by decide, by decide⟩

theorem raisedOnce_body (chunks : List (List UInt8)) :
    RaisedOnce ([.nextRecv, .afterRecvHeaders] :: (quiet chunks ++ [[.afterRecvMsg]])) := by
  refine ⟨?_, ?_, ?_⟩
  · rw [List.flatten_cons, List.count_append, List.flatten_append, List.count_append,
      count_quiet (by decide)]
    decide
  · rw [← List.cons_append, List.getLastD_concat]
    exact .head _
  · rw [List.flatten_cons, List.count_append, List.flatten_append, List.count_append,
      count_quiet (by decide)]
    decide

/-- The chunk that gives the end of the headers, with those before and after it. -/
structure Split (r : Request) (before : List (List UInt8)) (c : List UInt8)
    (after : List (List UInt8)) : Prop where
  nonempty : ∀ d ∈ before ++ c :: after, d ≠ []
  flatten : (before ++ c :: after).flatten = r.bytes
  short : before.flatten.length < r.head.length
  complete : r.head.length ≤ (before.flatten ++ c).length

theorem Split.rest (h : Split r before c after) :
    (before.flatten ++ c) ++ after.flatten = r.bytes := by
  rw [← h.flatten, List.flatten_append, List.flatten_cons, List.append_assoc]

theorem Split.nonempty_after (h : Split r before c after) : ∀ d ∈ after, d ≠ [] := fun d hd =>
  h.nonempty d (List.mem_append_right _ (.tail _ hd))

/-- All receives, split at the one that gives the end of the headers. -/
theorem Split.receiveAll (h : Split r before c after) (reqHandlers : ℕ)
    (hver : verOf (lastChar r.version) = some ver) :
    receiveAll reqHandlers (create .request []) (before ++ c :: after) =
      (HttpServer.receiveAll reqHandlers (r.early ver before.flatten) (c :: after)).map
        fun s => (s.1, quiet before ++ s.2) := by
  have hp : [] ++ before.flatten <+: r.bytes := by
    rw [← h.flatten, List.flatten_append]
    exact List.prefix_append _ _
  have hbefore := receiveAll_headers_short reqHandlers hver
    (fun c hc => h.nonempty c (List.mem_append_left _ hc)) hp h.short
  rw [early_nil] at hbefore
  exact receiveAll_append hbefore

theorem Split.receive (h : Split r before c after) (reqHandlers : ℕ)
    (hver : verOf (lastChar r.version) = some ver) :
    receive reqHandlers (r.early ver before.flatten) c =
      .ok (if (parseBody (r.headed ver (before.flatten ++ c))).2 then
          (fullyParsed reqHandlers (parseBody (r.headed ver (before.flatten ++ c))).1,
            [.afterRecvHeaders, .afterRecvMsg])
        else ((parseBody (r.headed ver (before.flatten ++ c))).1,
          [.nextRecv, .afterRecvHeaders])) :=
  receive_headers hver ⟨_, h.rest⟩ h.complete

theorem split_whole (r : Request) : Split r [] r.bytes [] where
  nonempty := by
    obtain ⟨l, hl⟩ : ∃ l, r.bytes = l ++ blankLine ++ r.body := ⟨r.line ++ block r.lines, by
      rw [Request.bytes, Request.head, ← List.append_assoc]⟩
    intro d hd
    rw [List.mem_singleton.mp hd, hl]
    simp [blankLine_eq]
  flatten := by simp
  short := by
    have := length_head r
    exact Nat.lt_of_lt_of_le (Nat.succ_pos _) this.ge
  complete := by
    rw [List.flatten_nil, List.nil_append, Request.bytes, List.length_append]
    exact Nat.le_add_right _ _

/-- The whole request in one chunk. -/
theorem receiveAll_whole (hver : verOf (lastChar r.version) = some ver)
    (hbody : (parseBody (r.headed ver r.bytes)).2 = true) :
    receiveAll reqHandlers (create .request []) [r.bytes] =
      .ok (fullyParsed reqHandlers (parseBody (r.headed ver r.bytes)).1,
        [[.afterRecvHeaders, .afterRecvMsg]]) := by
  have h := split_whole r
  have hreceive := h.receive reqHandlers hver
  rw [List.flatten_nil, List.nil_append, if_pos hbody] at hreceive
  have hall := h.receiveAll reqHandlers hver
  rw [List.flatten_nil, receiveAll_cons hreceive] at hall
  exact hall

/-- The receives are right if those from the end of the headers on are. -/
theorem Split.correct (h : Split r before c after)
    (hver : verOf (lastChar r.version) = some ver)
    (hbody : (parseBody (r.headed ver r.bytes)).2 = true)
    (hrest : HttpServer.receiveAll reqHandlers (r.early ver before.flatten) (c :: after) =
      .ok (fullyParsed reqHandlers (parseBody (r.headed ver r.bytes)).1, all))
    (hraised : RaisedOnce all) : Correct reqHandlers r (before ++ c :: after) := by
  have hne : all ≠ [] := by
    rintro rfl
    exact absurd (length_events hrest) (Nat.succ_ne_zero _).symm
  have hall := h.receiveAll reqHandlers hver
  rw [hrest] at hall
  exact ⟨_, _, _, _, hall, receiveAll_whole hver hbody, ⟨rfl, rfl, rfl, rfl, rfl, rfl, rfl⟩,
    (raisedOnce_quiet hne).mpr hraised⟩

/-- The receives are wrong if those from the end of the headers on are. -/
theorem Split.not_correct (h : Split r before c after)
    (hver : verOf (lastChar r.version) = some ver)
    (hrest : ∀ req events rest,
      HttpServer.receive reqHandlers (r.early ver before.flatten) c = .ok (req, events) →
        (∃ req', HttpServer.receiveAll reqHandlers req after = .ok (req', rest)) →
          ¬ RaisedOnce (events :: rest)) :
    ¬ Correct reqHandlers r (before ++ c :: after) := by
  rintro ⟨req, events, whole, events', hall, -, -, hraised⟩
  rw [h.receiveAll reqHandlers hver] at hall
  cases hs : HttpServer.receiveAll reqHandlers (r.early ver before.flatten) (c :: after) with
  | error e =>
    rw [hs] at hall
    exact nomatch hall
  | ok s =>
    rw [hs] at hall
    obtain ⟨rfl, rfl⟩ := Prod.mk.inj (Except.ok.inj hall)
    obtain ⟨req₁, first, rest, hfirst, hafter, hs₂⟩ := receiveAll_cons_ok hs
    rw [hs₂, raisedOnce_quiet (List.cons_ne_nil _ _)] at hraised
    exact hrest req₁ first rest hfirst ⟨_, hafter⟩ hraised

theorem dropLast_append_cons (h : after ≠ []) :
    (before ++ c :: after).dropLast = before ++ c :: after.dropLast := by
  rw [List.dropLast_append_of_ne_nil (List.cons_ne_nil _ _), List.dropLast_cons_of_ne_nil h]

theorem le_length_flatten (hlen : r.head.length ≤ (before.flatten ++ c).length) :
    r.head.length ≤ (before ++ c :: after).flatten.length := by
  rw [List.flatten_append, List.flatten_cons, ← List.append_assoc, List.length_append]
  omega

theorem Split.length_dropLast_lt (h : Split r before c after) :
    (before ++ c :: after).dropLast.flatten.length < r.head.length ↔ after = [] := by
  constructor
  · intro hlen
    by_contra hafter
    rw [dropLast_append_cons hafter] at hlen
    exact absurd hlen (Nat.not_lt.mpr (le_length_flatten h.complete))
  · rintro rfl
    rw [List.dropLast_concat]
    exact h.short

theorem Split.rescanned_iff (h : Split r before c after) :
    Rescanned r (before ++ c :: after) ↔
      2 ≤ after.length ∧ SecondEnd r ((before.flatten ++ c) ++ after.dropLast.flatten) := by
  by_cases hafter : after = []
  · subst hafter
    refine iff_of_false (fun hr => ?_) fun h2 => absurd h2.1 (Nat.not_succ_le_zero 1)
    have hlen := hr.1
    rw [List.dropLast_concat] at hlen
    obtain ⟨last, hlast⟩ := List.dropLast_prefix before
    have hsub := congrArg (fun l => l.flatten.length) hlast
    simp only [List.flatten_append, List.length_append] at hsub
    have hshort := h.short
    omega
  · have hflat : (before ++ c :: after.dropLast).flatten =
        (before.flatten ++ c) ++ after.dropLast.flatten := by
      rw [List.flatten_append, List.flatten_cons, List.append_assoc]
    rw [Rescanned, dropLast_append_cons hafter, hflat]
    refine and_congr_left fun _ => ?_
    by_cases hdrop : after.dropLast = []
    · rw [hdrop, List.dropLast_concat]
      have hone : after.length = 1 := by
        have := List.length_pos_of_ne_nil hafter
        have hzero := congrArg List.length hdrop
        rw [List.length_dropLast, List.length_nil] at hzero
        omega
      exact iff_of_false (Nat.not_le.mpr h.short) (by omega)
    · rw [dropLast_append_cons hdrop]
      have hpos := List.length_pos_of_ne_nil hdrop
      rw [List.length_dropLast] at hpos
      exact iff_of_true (le_length_flatten h.complete) (by omega)

/-- When the content length is read. -/
theorem Split.correct_iff_of_read (h : Split r before c after)
    (hver : verOf (lastChar r.version) = some ver) (hs : swallowed r.before = false) :
    Correct reqHandlers r (before ++ c :: after) ↔ ¬ Rescanned r (before ++ c :: after) := by
  have hreceive := h.receive reqHandlers hver
  have hbody : (parseBody (r.headed ver r.bytes)).2 = true := by rw [parseBody_whole hs]
  have hfinal : (parseBody (r.headed ver r.bytes)).1 = r.bodied ver := by rw [parseBody_whole hs]
  by_cases hafter : after = []
  · subst hafter
    have hlast : before.flatten ++ c = r.bytes := by simpa using h.rest
    rw [hlast, if_pos hbody] at hreceive
    have hrest : HttpServer.receiveAll reqHandlers (r.early ver before.flatten) [c] = _ :=
      receiveAll_cons hreceive
    exact iff_of_true (h.correct hver hbody hrest raisedOnce_single)
      fun hr => absurd (h.rescanned_iff.mp hr).1 (Nat.not_succ_le_zero 1)
  · have hlen : (before.flatten ++ c).length < r.bytes.length :=
      length_lt_of_rest h.rest hafter h.nonempty_after
    have hpart : parseBody (r.headed ver (before.flatten ++ c)) = _ :=
      parseBody_part hs h.complete hlen
    rw [hpart, if_neg Bool.false_ne_true] at hreceive
    rw [h.rescanned_iff]
    constructor
    · intro hcorrect hr
      refine h.not_correct hver (fun req events rest hfirst hafter' => ?_) hcorrect
      rw [hreceive] at hfirst
      obtain ⟨rfl, rfl⟩ := Prod.mk.inj (Except.ok.inj hfirst)
      obtain ⟨req', hafter'⟩ := hafter'
      exact not_raisedOnce_of_mem_headers (by simp)
        (receiveAll_rescan hs h.complete h.rest h.nonempty_after hr.1 hr.2 hafter')
    · intro hr
      have hrest : HttpServer.receiveAll reqHandlers (r.early ver before.flatten)
          (c :: after) = _ := receiveAll_cons hreceive
      rw [receiveAll_body hs h.complete h.rest hafter h.nonempty_after
        fun hlen hend => hr ⟨hlen, hend⟩, ← hfinal] at hrest
      exact h.correct hver hbody hrest (raisedOnce_body _)

theorem needsNoBody_headed : needsNoBody (r.headed ver p) = true ↔ Bodyless r := by
  have hmethod : (r.headed ver p).method = (methodOf r.method).getD .invalid := rfl
  have htype : (r.headed ver p).type = .request := rfl
  rw [needsNoBody, htype, hmethod, Bodyless]
  cases methodOf r.method with
  | none => simp
  | some method => cases method <;> simp

/-- When the content length is not read. -/
theorem Split.correct_iff_of_swallowed (h : Split r before c after)
    (hver : verOf (lastChar r.version) = some ver) (hs : swallowed r.before = true) :
    Correct reqHandlers r (before ++ c :: after) ↔ Bodyless r ∧ after = [] := by
  have hreceive := h.receive reqHandlers hver
  by_cases hbodyless : Bodyless r
  · have hneeds (p : List UInt8) : needsNoBody (r.headed ver p) = true :=
      needsNoBody_headed.mpr hbodyless
    have hbody (p : List UInt8) : (parseBody (r.headed ver p)).2 = true := by
      rw [parseBody_swallowed hs, if_pos (hneeds p)]
    rw [if_pos (hbody _)] at hreceive
    refine ⟨fun hcorrect => ⟨hbodyless, ?_⟩, ?_⟩
    · by_contra hafter
      refine h.not_correct hver (fun req events rest hfirst hafter' => ?_) hcorrect
      rw [hreceive] at hfirst
      obtain ⟨rfl, rfl⟩ := Prod.mk.inj (Except.ok.inj hfirst)
      obtain ⟨req', hafter'⟩ := hafter'
      refine not_raisedOnce_of_mem_msg (by simp) ?_
      rintro rfl
      exact hafter (List.length_eq_zero_iff.mp (length_events hafter').symm)
    · rintro ⟨-, rfl⟩
      have hlast : before.flatten ++ c = r.bytes := by simpa using h.rest
      rw [hlast] at hreceive
      exact h.correct hver (hbody _) (receiveAll_cons hreceive) raisedOnce_single
  · refine iff_of_false (h.not_correct hver fun req events rest hfirst hafter => ?_)
      fun hb => hbodyless hb.1
    have hneeds : ¬ needsNoBody (r.headed ver (before.flatten ++ c)) = true :=
      mt needsNoBody_headed.mp hbodyless
    rw [parseBody_swallowed hs, if_neg hneeds] at hreceive
    rw [hreceive] at hfirst
    obtain ⟨rfl, rfl⟩ := Prod.mk.inj (Except.ok.inj hfirst)
    obtain ⟨req', hafter⟩ := hafter
    have hstuck : Stuck (invalid (r.headed ver (before.flatten ++ c))).1 := by
      refine ⟨rfl, rfl, ?_, Bool.eq_false_iff.mpr hneeds⟩
      have hget := getHeader_headed r ver (before.flatten ++ c)
      rwa [hs, if_pos rfl] at hget
    rcases receiveAll_stuck hstuck hafter with hmem | hnot
    · exact not_raisedOnce_of_mem_headers (by simp) hmem
    · refine not_raisedOnce_of_not_mem fun hmem => ?_
      rw [List.flatten_cons] at hmem
      rcases List.mem_append.mp hmem with hmem | hmem
      · simp at hmem
      · exact hnot hmem

theorem not_correct_of_unknown (hver : verOf (lastChar r.version) = none)
    (hne : ∀ c ∈ chunks, c ≠ []) (hflat : chunks.flatten = r.bytes) :
    ¬ Correct reqHandlers r chunks := by
  rintro ⟨req, events, whole, events', hall, -, -, hraised⟩
  refine not_raisedOnce_of_not_mem ?_ hraised
  exact receiveAll_unknown hver hne ⟨rfl, rfl⟩ (hflat ▸ List.prefix_refl _) hall

/-- A request in chunks is received as it is in one if and only if the version is known and
neither the content length nor the end of the headers is mistaken. -/
theorem correct_iff (hne : ∀ c ∈ chunks, c ≠ []) (hflat : chunks.flatten = r.bytes) :
    Correct reqHandlers r chunks ↔ Receivable r chunks := by
  rw [Receivable]
  cases hver : verOf (lastChar r.version) with
  | none => exact iff_of_false (not_correct_of_unknown hver hne hflat) fun h => h.1 rfl
  | some ver =>
    have hpos : 0 < r.head.length := by
      rw [length_head]
      exact Nat.succ_pos _
    have hlen : r.head.length ≤ chunks.flatten.length := by
      rw [hflat, Request.bytes, List.length_append]
      exact Nat.le_add_right _ _
    obtain ⟨before, c, after, rfl, hshort, hcomplete⟩ := exists_chunk hpos hlen
    have h : Split r before c after := ⟨hne, hflat, hshort, hcomplete⟩
    cases hs : swallowed r.before with
    | false =>
      have heven : Even (blankRun r.before) := by
        by_contra hodd
        exact Bool.false_ne_true (hs ▸ (swallowed_iff _).mpr hodd)
      rw [if_pos heven, h.correct_iff_of_read hver hs]
      exact ⟨fun hr => ⟨Option.some_ne_none _, hr⟩, And.right⟩
    | true =>
      rw [if_neg ((swallowed_iff _).mp hs), h.correct_iff_of_swallowed hver hs,
        h.length_dropLast_lt]
      exact ⟨fun hr => ⟨Option.some_ne_none _, hr⟩, And.right⟩

/-- A request with the body `"\r\nab"`. -/
def upload : Request where
  method := text "POST"
  uri := text "/"
  version := text "HTTP/1.1"
  before := []
  lengthLine := ⟨text "Content-Length", text " 4", by decide, by decide⟩
  after := []
  digits := text "4"
  blanks := []
  body := text "\r\nab"
  oneLine := by decide
  noSpace := by decide
  lengthKey := by decide
  otherKeys := by simp
  lengthValue := by decide
  digits_ne_nil := by decide
  isDigits := by decide
  isBlanks := by simp
  decimal_digits := by decide
  short := by decide

/-- The second chunk has the end of the headers. -/
def uploadChunks : List (List UInt8) :=
  [text "POST / HT", text "TP/1.1\r\nContent-Length: 4\r\n\r\n\r", text "\nab"]

theorem correct_iff_upload :
    (∀ c ∈ uploadChunks, c ≠ []) ∧ uploadChunks.flatten = upload.bytes ∧
      Correct 0 upload uploadChunks :=
  ⟨by decide, by decide, (correct_iff (by decide) (by decide)).mpr (by decide)⟩

/-- The body is split behind its first line end. -/
def uploadRescanned : List (List UInt8) :=
  [text "POST / HTTP/1.1\r\nContent-Length: 4\r\n\r\n", text "\r\n", text "ab"]

theorem not_correct_rescanned :
    (∀ c ∈ uploadRescanned, c ≠ []) ∧ uploadRescanned.flatten = upload.bytes ∧
      ¬ Correct 0 upload uploadRescanned := by
  have hsplit : Split upload []
      (text "POST / HTTP/1.1\r\nContent-Length: 4\r\n\r\n") [text "\r\n", text "ab"] :=
    ⟨by decide, by decide, by decide, by decide⟩
  have hver : verOf (lastChar upload.version) = some .v1_1 := by decide
  exact ⟨by decide, by decide, fun h =>
    (hsplit.correct_iff_of_read hver (by decide)).mp h (by decide)⟩

end Libuo.HttpChunks
