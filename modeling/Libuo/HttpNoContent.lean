import Libuo.HttpDelivery

/-!
# Messages without content

A message to which no content has been set ends with its headers, and has none for its length. It
is complete as soon as its headers are, if it is one of those that may be without a body.
-/

namespace Libuo.HttpNoContent
open CStrings CText HttpMsg HttpHeaders HttpParseSafety HttpRejected HttpReceive HttpRoundTrip
open HttpDelivery
open HttpServer (Event)

/-- Every part of the message but its content is set once, and there is no content. -/
structure Bare (m : Message) (calls : List Call) : Prop where
  calls : calls.Perm (.start :: m.headers.map .header)
  content : m.content = []

variable {finish : Msg → Msg} {m : Message} {calls : List Call} {msg started : Msg}
  {p c : List UInt8}

/-- The message with the empty content. -/
theorem Bare.composes (h : Bare m calls) : Composes m (calls ++ [.content]) := by
  have hswap : (calls ++ [Call.content]).Perm (.content :: calls) :=
    List.perm_append_singleton _ _
  exact hswap.trans ((h.calls.cons _).trans (.swap _ _ _))

theorem compose_content (m : Message) (calls : List Call) : compose m (calls ++ [.content]) =
    setContent (compose m calls) m.content m.contentType := by
  rw [compose, List.foldl_append]
  rfl

/-- But for its headers and its content, a message is what its start line has set. -/
theorem startPart_bare (h : Bare m calls) :
    startPart (compose m calls) = HttpRoundTrip.started m.start := by
  rw [← startPart_compose h.composes, compose_content, setContent]
  split <;> rfl

theorem content_notMem (h : Bare m calls) : Call.content ∉ calls := by
  rw [h.calls.mem_iff]
  simp

theorem bodyLen_bare (h : Bare m calls) : (compose m calls).bodyLen = 0 := by
  have hfold : ∀ (calls : List Call) (msg : Msg), Call.content ∉ calls →
      (calls.foldl (Call.apply m) msg).bodyLen = msg.bodyLen := by
    intro calls
    induction calls with
    | nil => exact fun _ _ => rfl
    | cons call calls ih =>
      intro msg hno
      rw [List.mem_cons, not_or] at hno
      rw [List.foldl_cons, ih _ hno.2]
      cases call with
      | start =>
        simp only [Call.apply]
        cases m.start with
        | request method uri version =>
          simp only [setRequestLine]
          split
          · split <;> rfl
          · rfl
        | response status version =>
          simp only [setStatusLine]
          split <;> rfl
      | header f => rfl
      | content => exact absurd rfl hno.1
  exact hfold calls _ (content_notMem h)

theorem sent_bare (h : Bare m calls) : (sent m calls).Perm m.headers := by
  have hfields : (Call.start :: m.headers.map .header).flatMap (Call.fields m) = m.headers := by
    simp [Call.fields, List.flatMap_map]
  rw [← hfields]
  exact h.calls.flatMap_right _

theorem nodup_bare (h : Bare m calls) : ((sent m calls).map Field.name).Nodup :=
  ((sent_bare h).map Field.name).nodup_iff.mpr m.distinct

theorem headers_bare (h : Bare m calls) :
    (compose m calls).headers = (sent m calls).map Field.entry := by
  have hdistinct : DistinctNames ([] ++ (sent m calls).map Field.entry) := by
    have := nodup_bare h
    rwa [List.nil_append, DistinctNames, List.map_map]
  rw [headers_compose, store_distinct hdistinct, List.nil_append]

theorem writeToBuf_bare (h : Bare m calls) (hp : AllPrintable m) :
    writeToBuf (compose m calls) [] = .ok (bytes m calls) := by
  have hline : writeStartLine (compose m calls) [] =
      .ok ([] ++ (m.start.text ++ crlf)) := by
    have hwrite := writeStartLine_compose h.composes []
    rw [if_pos hp.1] at hwrite
    rw [← hwrite]
    change writeStartLine (startPart (compose m calls)) [] =
      writeStartLine (startPart (compose m (calls ++ [.content]))) []
    rw [startPart_bare h, startPart_compose h.composes]
  have hsent : ∀ f ∈ sent m calls, Printable f.line.text := fun f hf =>
    hp.2 f (List.mem_append_right _ ((sent_bare h).mem_iff.mp hf))
  rw [writeToBuf, hline, headers_bare h, bodyLen_bare h]
  change (do
    let dst ← (sent m calls).map Field.entry |>.foldlM writeHeader ([] ++ (m.start.text ++ crlf))
    pure (dst ++ crlf ++ _)) = _
  rw [foldlM_writeHeader hsent]
  change Except.ok _ = _
  have hblock := crlf_flatMap (sent m calls)
  rw [bytes, lines, blankLine, h.content]
  simp only [List.nil_append, List.append_nil, List.append_assoc, if_true] at hblock ⊢
  rw [← List.append_assoc crlf, hblock, List.append_assoc]

/-- The content of a message and its length. -/
def body (msg : Msg) : Option (List UInt8) × ℕ := (msg.body, msg.bodyLen)

theorem body_parseRequestLine (msg : Msg) (line : List UInt8) (cr : ℕ) :
    body (parseRequestLine msg line cr).1 = body msg := by
  rw [parseRequestLine]
  split
  · rfl
  · simp only
    split
    · rfl
    · split
      · rfl
      · split <;> rfl

theorem body_parseStatusLine {msg' : Msg} {line : List UInt8} {cr : ℕ} {b : Bool}
    (h : parseStatusLine msg line cr = .ok (msg', b)) : body msg' = body msg := by
  rw [parseStatusLine] at h
  simp only at h
  split at h
  · obtain ⟨rfl, -⟩ := Prod.mk.inj (Except.ok.inj h)
    rfl
  · cases h
  · split at h
    · obtain ⟨rfl, -⟩ := Prod.mk.inj (Except.ok.inj h)
      rfl
    · split at h
      · obtain ⟨rfl, -⟩ := Prod.mk.inj (Except.ok.inj h)
        rfl
      · obtain ⟨rfl, -⟩ := Prod.mk.inj (Except.ok.inj h)
        rfl

theorem body_parseStartLine {msg' : Msg} {b : Bool} (h : parseStartLine msg = .ok (msg', b)) :
    body msg' = body msg := by
  rcases parseStartLine_cases h with ⟨rfl, -⟩ | ⟨cr, hcr, -⟩
  · rfl
  · rw [parseStartLine_lineEnd hcr] at h
    cases htype : msg.type with
    | request =>
      rw [htype] at h
      obtain ⟨rfl, -⟩ := Prod.mk.inj (Except.ok.inj h)
      exact body_parseRequestLine _ _ _
    | response =>
      rw [htype] at h
      exact body_parseStatusLine h

/-- The start line is followed by the end of the headers. -/
theorem parseHeaders_none (hoffset : 2 ≤ msg.parsingOffset)
    (hbuf : msg.buf.drop (msg.parsingOffset - 2) = blankLine) :
    parseHeaders msg =
      .ok ({ msg with parsingOffset := msg.parsingOffset + 2, hasHeaders := true }, true) := by
  have hfind : strstr (cstr (msg.buf.drop (msg.parsingOffset - 2))) (crlf ++ crlf) = some 0 := by
    rw [hbuf]
    decide
  have hbehind : msg.parsingOffset > msg.parsingOffset - 2 + 0 := by omega
  have hend : msg.parsingOffset - 2 + 0 + 4 = msg.parsingOffset + 2 := by omega
  rw [parseHeaders, if_neg (by omega), hfind]
  simp only [if_pos hbehind, hend]

theorem headed_bare (h : Bare m calls) : ∃ msg, Headed m.start.type (bytes m calls) msg ∧
    HasStart msg m.start ∧ msg.headers = store [] (readLines (lines m calls)) ∧
    msg.parsingOffset = (bytes m calls).length := by
  have hblank : blankLine = crlf ++ crlf := rfl
  cases hlines : lines m calls with
  | nil =>
    have hbytes : bytes m calls = m.start.text ++ (crlf ++ crlf) := by
      rw [bytes, hlines, h.content, List.append_nil]
      rfl
    obtain ⟨started, hline, hstart, hbuf, hheaders, hoffset⟩ := parseStartLine_start m.valid crlf
    have hdrop : started.buf.drop (started.parsingOffset - 2) = blankLine := by
      rw [hbuf, hoffset, Nat.add_sub_cancel, List.drop_left]
      rfl
    refine ⟨_, ⟨started, hbytes ▸ hline, parseHeaders_none (by omega) hdrop⟩, ?_, hheaders, ?_⟩
    · revert hstart
      cases m.start <;> exact id
    · rw [hbytes]
      simp only [hoffset, List.length_append]
      rfl
  | cons l ls =>
    have hbytes : bytes m calls = m.start.text ++ (crlf ++ (l.text ++ block ls ++
        (blankLine ++ []))) := by
      rw [bytes, hlines, block_cons, h.content]
      rfl
    obtain ⟨started, hline, hstart, hbuf, hheaders, hoffset⟩ :=
      parseStartLine_start m.valid (l.text ++ block ls ++ (blankLine ++ []))
    have hdrop : started.buf.drop (started.parsingOffset - 2) =
        block (l :: ls) ++ (blankLine ++ []) := by
      rw [hbuf, hoffset, Nat.add_sub_cancel, List.drop_left, block_cons]
      rfl
    refine ⟨_, ⟨started, hbytes ▸ hline, parseHeaders_lines (by omega) hdrop⟩, ?_, ?_, ?_⟩
    · revert hstart
      cases m.start <;> exact id
    · simp only [hheaders]
    · have hlength : (blankLine ++ ([] : List UInt8)).length = 4 := rfl
      rw [bytes, hlines, h.content]
      simp only [hoffset, Nat.add_sub_cancel, List.length_append, hlength]
      omega

/-- There is nothing behind the headers in a message of which only these have been parsed. -/
theorem body_headed {type : MsgType} (h : Headed type p msg) :
    msg.type = type ∧ body msg = (none, 0) := by
  obtain ⟨started, hline, hheaders⟩ := h
  have hbody : body started = (none, 0) := body_parseStartLine hline
  rcases parseStartLine_cases hline with ⟨-, hb, -⟩ | ⟨cr, -, hparsed⟩
  · cases hb
  · obtain ⟨-, ⟨-, hb, -⟩ | ⟨i, headers, -, -, rfl⟩⟩ := parseHeaders_cases hheaders
    · cases hb
    · exact ⟨hparsed.kept.type, hbody⟩

theorem distinctNames_bare (h : Bare m calls) : DistinctNames (readLines (lines m calls)) := by
  have hkeys : ((lines m calls).map Line.key).Nodup := by
    rw [lines, List.map_map, show Line.key ∘ Field.line = Field.name from funext Field.line_key]
    exact nodup_bare h
  exact (keys_readLines _).nodup hkeys

theorem store_bare (h : Bare m calls) :
    store [] (readLines (lines m calls)) = readLines (lines m calls) :=
  (store_distinct (by simpa using distinctNames_bare h)).trans (List.nil_append _)

/-- None of the headers is the length of a content. -/
theorem contentLength_bare (h : Bare m calls)
    (hheaders : msg.headers = store [] (readLines (lines m calls))) :
    getHeader msg (text "content-length") = none := by
  have hnone : OrderedMap.get strings msg.headers (text "content-length") = none := by
    by_contra hsome
    obtain ⟨entry, hentry, hname⟩ :=
      OrderedMap.get_isSome.mp (Option.isSome_iff_ne_none.mpr hsome)
    rw [hheaders, store_bare h] at hentry
    have hkey := (keys_readLines _).subset (List.mem_map_of_mem hentry)
    rw [lines, List.map_map] at hkey
    obtain ⟨f, hf, hfname⟩ := List.mem_map.mp hkey
    have hsame : f.name = text "content-length" := by
      rw [← f.line_key]
      exact hfname.trans (beq_iff_eq.mp hname)
    exact (m.other f ((sent_bare h).mem_iff.mp hf)).1 hsame
  rw [getHeader, hnone]
  rfl

theorem needsNoBody_compose (h : Bare m calls) :
    needsNoBody (compose m calls) = needsNoBody (HttpRoundTrip.started m.start) := by
  rw [← startPart_bare h]
  rfl

/-- The kind of the message decides whether it may be without a body. -/
theorem needsNoBody_bare (h : Bare m calls) (hstart : HasStart msg m.start)
    (htype : msg.type = m.start.type) : needsNoBody msg = needsNoBody (compose m calls) := by
  rw [needsNoBody_compose h, needsNoBody, htype]
  cases hs : m.start with
  | request method uri version =>
    rw [hs] at hstart
    simp only [Start.type, hstart.1]
    rfl
  | response status version =>
    rw [hs] at hstart
    simp only [Start.type, hstart.1]
    rfl

/-- The message is complete with its headers, or it is rejected. -/
theorem parseBody_bare (h : Bare m calls) (hstart : HasStart msg m.start)
    (htype : msg.type = m.start.type)
    (hheaders : msg.headers = store [] (readLines (lines m calls))) : parseBody msg =
      if needsNoBody (compose m calls) then ({ msg with parsingOffset := 0, hasBody := true }, true)
      else invalid msg := by
  rw [parseBody, contentLength_bare h hheaders, needsNoBody_bare h hstart htype]

variable {type : MsgType} {bytes : List UInt8}

/-- When the headers end with the bytes, no part of them has all headers. -/
theorem not_headed_part (h : Headed type (p ++ c) msg) (hc : c ≠ [])
    (hends : msg.parsingOffset = (p ++ c).length) (msg' : Msg) : ¬ Headed type p msg' := by
  intro h'
  have hsame := h.part h'
  have hinside : msg'.parsingOffset ≤ msg'.buf.length := by
    obtain ⟨started, -, hheaders⟩ := h'
    exact offset_le hheaders
  have hoffset : msg'.parsingOffset = msg.parsingOffset := by rw [← hsame]; rfl
  have hpos := List.length_pos_of_ne_nil hc
  rw [h'.buf, hoffset, hends, List.length_append] at hinside
  omega

/-- A message that is complete with its headers can be cut in any way. -/
theorem sendable_of_headed (h : Headed type bytes msg) (hbody : (parseBody msg).2 = true)
    (hends : msg.parsingOffset = bytes.length) : Sendable type bytes := by
  have hpart {p : List UInt8} (hp : p <+: bytes) (hne : p ≠ bytes) (msg' : Msg) :
      ¬ Headed type p msg' := by
    obtain ⟨c, rfl⟩ := hp
    refine not_headed_part h ?_ hends msg'
    rintro rfl
    exact hne (List.append_nil p).symm
  have hcomplete : Complete type bytes := by
    obtain ⟨started, hline, hheaders⟩ := h
    have hreached : Reached id type bytes _ _ := .complete hline hheaders hbody
    exact hreached.complete_iff.mpr (by simp)
  refine ⟨hcomplete, fun p hp hne hcomplete => ?_, ?_⟩
  · cases honce : afterRecv id (create type p) with
    | error e =>
      rw [Complete, honce] at hcomplete
      cases hcomplete
    | ok r =>
      obtain ⟨msg', events⟩ := r
      have hreached := reached_iff.mp honce
      have hmem := hreached.complete_iff.mp hcomplete
      cases hreached with
      | line | started | headed => simp at hmem
      | complete hline hheaders hbody => exact hpart hp hne _ ⟨_, hline, hheaders⟩
  · rintro p c hp ⟨msg', hheaded, hincomplete, -⟩
    have hne : p ≠ bytes := by
      rintro rfl
      have hc : c = [] := List.append_right_eq_self.mp
        (hp.eq_of_length_le (List.prefix_append _ _).length_le)
      rw [hc, List.append_nil] at hincomplete
      exact hincomplete hcomplete
    cases headed_iff.mp hheaded with
    | headed hline hheaders hbody =>
      exact hpart ((List.prefix_append _ _).trans hp) hne _ ⟨_, hline, hheaders⟩

/-- What the headers of a parsed message without empty values are. -/
theorem getHeader_bare (h : Bare m calls) (hne : ∀ f ∈ m.headers, f.value ≠ [])
    (hheaders : msg.headers = store [] (readLines (lines m calls))) (name : List UInt8) :
    getHeader msg name = getHeader (compose m calls) name := by
  have hread : readLines (lines m calls) = (sent m calls).map Field.entry := by
    rw [readLines_eq, lines, List.map_map]
    · refine List.map_congr_left fun f hf => ?_
      change (f.line.key, some f.line.value) = f.entry
      rw [f.line_key, f.line_value]
      rfl
    · intro l hl
      obtain ⟨f, hf, rfl⟩ := List.mem_map.mp hl
      rw [f.line_value]
      exact hne f ((sent_bare h).mem_iff.mp hf)
  rw [getHeader, getHeader, hheaders, store_bare h, hread, headers_bare h]

/-- A message of a kind that may be without a body travels. -/
theorem travels_bare (h : Bare m calls) (hp : AllPrintable m)
    (hne : ∀ f ∈ m.headers, f.value ≠ []) (hneeds : needsNoBody (compose m calls) = true) :
    Travels m calls := by
  obtain ⟨msg, hheaded, hstart, hheaders, hends⟩ := headed_bare h
  obtain ⟨htype, hbody⟩ := body_headed hheaded
  obtain ⟨hnone, hlength⟩ := Prod.mk.inj hbody
  have hparse := parseBody_bare h hstart htype hheaders
  rw [if_pos hneeds] at hparse
  have hcomplete : (parseBody msg).2 = true := by rw [hparse]
  refine ⟨?_, writeToBuf_bare h hp, sendable_of_headed hheaded hcomplete hends, ?_⟩
  · have hline := congrArg Msg.startLine (startPart_bare h)
    refine hline.trans ?_
    cases m.start <;> rfl
  · intro finish hfinish
    obtain ⟨started, hline, hread⟩ := hheaded
    refine ⟨_, .complete hline hread hcomplete, ?_⟩
    obtain ⟨offset, hsame⟩ := hfinish (parseBody msg).1
    rw [hsame, carries_offset, hparse]
    refine ⟨?_, getHeader_bare h hne hheaders, ?_, ?_⟩
    · revert hstart
      cases m.start <;> exact id
    · change msg.body.getD [] = _
      rw [hnone, h.content]
      rfl
    · change msg.bodyLen = _
      rw [hlength, h.content]
      rfl

/-- A header with the empty value is not read back. -/
theorem value_ne_nil_of_carries (h : Bare m calls) {msg' : Msg} (hcarries : Carries msg' m calls)
    (hheaders : msg'.headers = store [] (readLines (lines m calls))) :
    ∀ f ∈ m.headers, f.value ≠ [] := by
  intro f hf hvalue
  obtain ⟨l, hl, hv, v, hne, hread⟩ := readLines_blank
    ⟨f.line, List.mem_map_of_mem ((sent_bare h).mem_iff.mpr hf), f.line_value.trans hvalue⟩
  obtain ⟨f', hf', rfl⟩ := List.mem_map.mp hl
  have hgot : getHeader msg' f'.name = v := by
    rw [getHeader, hheaders, store_bare h, ← f'.line_key, (distinctNames_bare h).get hread]
    rfl
  have hdistinct : DistinctNames ((sent m calls).map Field.entry) := by
    rw [DistinctNames, List.map_map]
    exact nodup_bare h
  have hcomposed : getHeader (compose m calls) f'.name = some f'.value := by
    have hget := hdistinct.get (List.mem_map_of_mem hf')
    rw [getHeader, headers_bare h]
    exact congrArg Option.join hget
  rw [hcarries.headers, hcomposed, ← f'.line_value, hv] at hgot
  exact hne hgot.symm

/-- A message without content arrives, whatever the chunks, if and only if no header has the empty
value and a message of its kind may be without a body. -/
theorem arrives_bare_iff (hfinish : KeepsMessage finish) (h : Bare m calls) (hp : AllPrintable m) :
    Arrives finish m calls ↔
      (∀ f ∈ m.headers, f.value ≠ []) ∧ needsNoBody (compose m calls) = true := by
  constructor
  · rintro ⟨msg', hcarries, hall⟩
    obtain ⟨msg, hheaded, hstart, hheaders, hends⟩ := headed_bare h
    obtain ⟨htype, -⟩ := body_headed hheaded
    have hwhole := hall _ (writeToBuf_bare h hp) [HttpRoundTrip.bytes m calls]
      (by simp [bytes_ne_nil]) (by simp)
    rw [receiveAll_single] at hwhole
    obtain ⟨started, hline, hread⟩ := hheaded
    have hparse := parseBody_bare h hstart htype hheaders
    cases hcomplete : (parseBody msg).2 with
    | false =>
      have hreached : Reached finish _ _ _ _ := .headed hline hread hcomplete
      rw [reached_iff.mpr hreached] at hwhole
      obtain ⟨-, hevents⟩ := Prod.mk.inj (Except.ok.inj hwhole)
      cases hevents
    | true =>
      have hreached : Reached finish _ _ _ _ := .complete hline hread hcomplete
      rw [reached_iff.mpr hreached] at hwhole
      obtain ⟨rfl, -⟩ := Prod.mk.inj (Except.ok.inj hwhole)
      obtain ⟨offset, hsame⟩ := hfinish (parseBody msg).1
      rw [hsame, carries_offset] at hcarries
      refine ⟨value_ne_nil_of_carries h hcarries ?_, ?_⟩
      · rw [(parseBody_keeps msg m.start).1, hheaders]
      · by_contra hneeds
        rw [hparse, if_neg hneeds] at hcomplete
        cases hcomplete
  · rintro ⟨hne, hneeds⟩
    exact (travels_bare h hp hne hneeds).arrives hfinish

theorem valid_get {uri : List UInt8} (huri : uri ≠ []) (hline : OneLine uri) :
    (Start.request .get uri .v1_1).Valid := ⟨by decide, huri, hline, by decide⟩

theorem oneLine_nil : OneLine [] := List.forall_mem_nil _

theorem trimmed_nil : ∀ c ∈ ([] : List UInt8).head?, isspace c = false := by decide

theorem short_nil : ([] : List UInt8).length < 2 ^ 64 := by decide

/-- A request that asks for nothing but a URI. -/
def asks (uri : List UInt8) (huri : uri ≠ []) (hline : OneLine uri) : Message where
  start := .request .get uri .v1_1
  headers := []
  content := []
  contentType := []
  valid := valid_get huri hline
  distinct := distinct_nil
  other := other_nil
  oneLine := oneLine_nil
  trimmed := trimmed_nil
  short := short_nil

theorem arrives_bare_iff_index :
    Arrives id (asks (text "/index.html") (by decide) (by decide)) [.start] :=
  (arrives_bare_iff keepsMessage_id ⟨.refl _, rfl⟩ ⟨by decide, by decide⟩).mpr
    ⟨by simp [asks], by decide⟩

end Libuo.HttpNoContent
