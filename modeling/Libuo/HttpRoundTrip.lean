import Libuo.HttpStartLine
import Mathlib.Data.List.Perm.Basic

/-!
# Messages written and parsed

A message is composed by calls in any order, written to a buffer, and parsed again as a
whole. The parsed message is the one that has been composed, unless a header has the
empty value or a line is too long to be printed.
-/

namespace Libuo.HttpRoundTrip
open CStrings CText OrderedMap HttpMsg HttpHeaders HttpStartLine

/-- A header of a message to be sent. -/
structure Field where
  name : List UInt8
  value : List UInt8
  isToken : IsToken name
  lower : name.map tolower = name
  oneLine : OneLine value
  trimmed : ∀ c ∈ value.head?, isspace c = false

/-- The line of a header. -/
def Field.line (f : Field) : Line where
  name := f.name
  rest := chr ' ' :: f.value
  isToken := f.isToken
  oneLine := fun c hc => (List.mem_cons.mp hc).elim (fun h => h ▸ by decide) (f.oneLine c)

/-- The arguments of `uo_http_req_set_request_line` or `uo_http_res_set_status_line`. -/
inductive Start where
  | request (method : Method) (uri : List UInt8) (version : Ver)
  | response (status : Status) (version : Ver)

def Start.Valid : Start → Prop
  | .request method uri version =>
    method ≠ .invalid ∧ uri ≠ [] ∧ OneLine uri ∧ version ≠ .invalid
  | .response status version => status ≠ .invalid ∧ version ≠ .invalid

def Start.type : Start → MsgType
  | .request _ _ _ => .request
  | .response _ _ => .response

/-- The start line without its end. -/
def Start.text : Start → List UInt8
  | .request method uri version =>
    printStr (methodStr method) ++ chr ' ' :: (uri ++ chr ' ' :: printStr (versionStr version))
  | .response status version =>
    printStr (versionStr version) ++ chr ' ' :: printStr (statusStr status)

theorem oneLine_printNat (n : ℕ) : OneLine (printNat n) := fun c hc => by
  have hd : isdigit c = true := isdigit_toDigits n c hc
  refine ⟨?_, ?_, ?_⟩ <;>
  · rintro rfl
    exact absurd hd (by decide)

/-- What is sent: the start line, the headers with their names, and the content. -/
structure Message where
  start : Start
  headers : List Field
  content : List UInt8
  contentType : List UInt8
  valid : start.Valid
  distinct : (headers.map Field.name).Nodup
  other : ∀ f ∈ headers, f.name ≠ CText.text "content-length" ∧ f.name ≠ CText.text "content-type"
  oneLine : OneLine contentType
  trimmed : ∀ c ∈ contentType.head?, isspace c = false
  short : content.length < 2 ^ 64

namespace Message

def contentLengthField (m : Message) : Field where
  name := CText.text "content-length"
  value := printNat m.content.length
  isToken := by decide
  lower := by decide
  oneLine := oneLine_printNat _
  trimmed c hc := not_isspace_of_isdigit (isdigit_toDigits _ c (List.mem_of_mem_head? hc))

def contentTypeField (m : Message) : Field where
  name := CText.text "content-type"
  value := m.contentType
  isToken := by decide
  lower := by decide
  oneLine := m.oneLine
  trimmed := m.trimmed

/-- The headers that `uo_http_msg_set_content` sets. -/
def contentFields (m : Message) : List Field :=
  if m.content = [] then [m.contentLengthField] else [m.contentLengthField, m.contentTypeField]

/-- All headers of the message. -/
def fields (m : Message) : List Field := m.contentFields ++ m.headers

end Message

/-- The calls that compose a message. -/
inductive Call where
  | start
  | header (f : Field)
  | content

def Call.apply (m : Message) (msg : Msg) : Call → Msg
  | .start =>
    match m.start with
    | .request method uri version => (setRequestLine msg method uri version).1
    | .response status version => (setStatusLine msg status version).1
  | .header f => setHeader msg f.name f.value
  | .content => setContent msg m.content m.contentType

def compose (m : Message) (calls : List Call) : Msg :=
  calls.foldl (Call.apply m) (create m.start.type [])

/-- Every part of the message is set once. -/
def Composes (m : Message) (calls : List Call) : Prop :=
  calls.Perm (.start :: .content :: m.headers.map .header)

/-- The three parsing functions in their order. -/
def parse (type : MsgType) (bytes : List UInt8) : Except Fault (Msg × Bool) :=
  (parseStartLine (create type bytes)).bind fun r =>
    if r.2 then (parseHeaders r.1).bind fun r => if r.2 then .ok (parseBody r.1) else .ok r
    else .ok r

/-- The message has the given start line. -/
def HasStart (msg : Msg) : Start → Prop
  | .request method uri version => msg.method = method ∧ msg.uri = some uri ∧ msg.ver = version
  | .response status version => msg.status = status ∧ msg.ver = version

/-- What has been written is parsed as the message that was composed. -/
def RoundTrips (m : Message) (calls : List Call) : Prop :=
  ∃ bytes msg, writeToBuf (compose m calls) [] = .ok bytes ∧
    parse m.start.type bytes = .ok (msg, true) ∧ HasStart msg m.start ∧
    (∀ name, getHeader msg name = getHeader (compose m calls) name) ∧
    msg.body.getD [] = m.content ∧ msg.bodyLen = m.content.length

variable {m : Message} {calls : List Call} {msg : Msg}

/-- The headers that a call sets. -/
def Call.fields (m : Message) : Call → List Field
  | .start => []
  | .header f => [f]
  | .content => m.contentFields

def Field.entry (f : Field) : List UInt8 × Option (List UInt8) := (f.name, some f.value)

/-- The headers in the order in which they have been set. -/
def sent (m : Message) (calls : List Call) : List Field := calls.flatMap (Call.fields m)

theorem headers_apply (m : Message) (msg : Msg) (call : Call) :
    (call.apply m msg).headers = store msg.headers ((call.fields m).map Field.entry) := by
  cases call with
  | start =>
    simp only [Call.apply]
    cases m.start with
    | request method uri version =>
      simp only [setRequestLine]
      split
      · split <;> rfl
      · rfl
    | response status version =>
      simp only [setStatusLine]
      split <;> rfl
  | header f => rfl
  | content =>
    rw [Call.apply, setContent, Call.fields, Message.contentFields]
    by_cases h : m.content = []
    · rw [if_pos (by simp [h]), if_pos h]
      simp only [List.map_cons, List.map_nil, Field.entry, Message.contentLengthField, h]
      rfl
    · rw [if_neg (by simpa using h), if_neg h]
      rfl

theorem headers_compose (m : Message) (calls : List Call) :
    (compose m calls).headers = store [] ((sent m calls).map Field.entry) := by
  have hfold (msg : Msg) : (calls.foldl (Call.apply m) msg).headers =
      store msg.headers ((sent m calls).map Field.entry) := by
    induction calls generalizing msg with
    | nil => rfl
    | cons call calls ih =>
      have hsent : sent m (call :: calls) = call.fields m ++ sent m calls := rfl
      rw [List.foldl_cons, ih, headers_apply, hsent, List.map_append, store_append]
  exact hfold _

theorem sent_perm (h : Composes m calls) : (sent m calls).Perm m.fields := by
  have hfields : (Call.start :: .content :: m.headers.map .header).flatMap (Call.fields m) =
      m.fields := by
    simp [Message.fields, Call.fields, List.flatMap_map]
  rw [← hfields]
  exact h.flatMap_right _

theorem nodup_fields (m : Message) : (m.fields.map Field.name).Nodup := by
  rw [Message.fields, List.map_append, List.nodup_append]
  refine ⟨?_, m.distinct, ?_⟩
  · rw [Message.contentFields]
    split
    · simp
    · exact (by decide : [CText.text "content-length", CText.text "content-type"].Nodup)
  · intro a ha b hb hab
    obtain ⟨f, hf, rfl⟩ := List.mem_map.mp hb
    obtain ⟨hlength, htype⟩ := m.other f hf
    rw [Message.contentFields] at ha
    split at ha
    · simp only [List.map_cons, List.map_nil, List.mem_singleton] at ha
      exact hlength (hab ▸ ha)
    · simp only [List.map_cons, List.map_nil, List.mem_cons, List.not_mem_nil, or_false] at ha
      exact ha.elim (fun ha => hlength (hab ▸ ha)) fun ha => htype (hab ▸ ha)

theorem nodup_sent (h : Composes m calls) : ((sent m calls).map Field.name).Nodup :=
  ((sent_perm h).map Field.name).nodup_iff.mpr (nodup_fields m)

theorem headers_eq (h : Composes m calls) :
    (compose m calls).headers = (sent m calls).map Field.entry := by
  have hdistinct : DistinctNames ([] ++ (sent m calls).map Field.entry) := by
    have := nodup_sent h
    rwa [List.nil_append, DistinctNames, List.map_map]
  rw [headers_compose, store_distinct hdistinct, List.nil_append]

/-- A part of a message that only one of the calls sets, whatever it was before. -/
theorem part_compose {α : Type} (part : Msg → α) (call : Call) (initial : α) {final : α}
    (hcall : ∀ msg, part msg = initial ∨ part msg = final → part (call.apply m msg) = final)
    (hother : ∀ msg call', call' ≠ call → part (call'.apply m msg) = part msg)
    (hinitial : part (create m.start.type []) = initial) (hmem : call ∈ calls) :
    part (compose m calls) = final := by
  have hfold : ∀ (calls : List Call) (msg : Msg),
      (part msg = final ∨ part msg = initial ∧ call ∈ calls) →
      part (calls.foldl (Call.apply m) msg) = final := by
    intro calls
    induction calls with
    | nil => exact fun msg h => h.resolve_right (by simp)
    | cons call' calls ih =>
      intro msg h
      rw [List.foldl_cons]
      by_cases heq : call' = call
      · subst heq
        exact ih _ (.inl (hcall msg (h.symm.imp And.left id)))
      · rw [← hother msg call' heq] at h
        exact ih _ (h.imp id fun h => ⟨h.1, (List.mem_cons.mp h.2).resolve_left (Ne.symm heq)⟩)
  exact hfold calls _ (.inr ⟨hinitial, hmem⟩)

/-- The message without its headers and its content. -/
def startPart (msg : Msg) : Msg :=
  { msg with headers := [], body := none, bodyLen := 0, hasBody := false }

/-- What a start line sets. -/
def started : Start → Msg
  | .request method uri version => { create .request [] with
      methodSpUri := some (printStr (methodStr method) ++ CText.text " " ++ uri)
      uri := some uri
      versionCrlf := some (printStr (versionStr version) ++ crlf)
      ver := version
      method
      startLine := true }
  | .response status version => { create .response [] with
      version := versionStr version
      statusSpReason := statusStr status
      ver := version
      status
      startLine := true }

theorem exists_methodStr {method : Method} (h : method ≠ .invalid) :
    ∃ s, methodStr method = some s := by
  cases method <;> simp [methodStr] at h ⊢

theorem exists_versionStr {version : Ver} (h : version ≠ .invalid) :
    ∃ s, versionStr version = some s := by
  cases version <;> simp [versionStr] at h ⊢

theorem exists_statusStr {status : Status} (h : status ≠ .invalid) :
    ∃ s, statusStr status = some s := by
  cases status <;> simp [statusStr] at h ⊢

theorem startPart_compose (h : Composes m calls) :
    startPart (compose m calls) = started m.start := by
  have hvalid := m.valid
  refine part_compose startPart .start (create m.start.type []) ?_ ?_ rfl
    (h.symm.subset (.head _))
  · intro msg hmsg
    rw [Call.apply]
    cases hstart : m.start with
    | request method uri version =>
      rw [hstart] at hvalid hmsg
      obtain ⟨hmethod, huri, -, hversion⟩ := hvalid
      obtain ⟨s, hs⟩ := exists_methodStr hmethod
      obtain ⟨v, hv⟩ := exists_versionStr hversion
      have hset : startPart (setRequestLine msg method uri version).1 = { startPart msg with
          methodSpUri := some (s ++ CText.text " " ++ uri)
          uri := some uri
          versionCrlf := some (v ++ crlf)
          ver := version
          method
          startLine := true } := by
        simp only [setRequestLine, hs, hv, if_neg huri]
        rfl
      simp only [hset]
      rcases hmsg with hmsg | hmsg <;>
      · rw [hmsg, started, hs, hv]
        rfl
    | response status version =>
      rw [hstart] at hvalid hmsg
      obtain ⟨hstatus, hversion⟩ := hvalid
      obtain ⟨s, hs⟩ := exists_statusStr hstatus
      obtain ⟨v, hv⟩ := exists_versionStr hversion
      have hset : startPart (setStatusLine msg status version).1 = { startPart msg with
          version := some v
          statusSpReason := some s
          ver := version
          status
          startLine := true } := by
        simp only [setStatusLine, hs, hv]
        rfl
      simp only [hset]
      rcases hmsg with hmsg | hmsg
      · rw [hmsg, started, hs, hv]
        rfl
      · rw [hmsg, started, hs, hv]
  · intro msg call hcall
    cases call with
    | start => exact absurd rfl hcall
    | header f => rfl
    | content =>
      rw [Call.apply, setContent]
      split <;> rfl

/-- The content that a message has to send. -/
theorem content_compose (h : Composes m calls) :
    (compose m calls).bodyLen = m.content.length ∧
      (m.content ≠ [] → (compose m calls).body = some m.content) := by
  have hpart : ((compose m calls).body, (compose m calls).bodyLen) =
      (if m.content = [] then none else some m.content, m.content.length) := by
    refine part_compose (fun msg => (msg.body, msg.bodyLen)) .content (none, 0) ?_ ?_ rfl
      (h.symm.subset (.tail _ (.head _)))
    · intro msg hmsg
      rw [Call.apply, setContent]
      by_cases hc : m.content = []
      · rw [if_pos (by simp [hc])]
        simpa [hc, setHeader] using hmsg
      · rw [if_neg (by simpa using hc)]
        simp [hc, setHeader]
    · intro msg call hcall
      cases call with
      | start =>
        simp only [Call.apply]
        cases m.start with
        | request method uri version =>
          simp only [setRequestLine]
          split
          · split <;> rfl
          · rfl
        | response status version =>
          simp only [setStatusLine]
          split <;> rfl
      | header f => rfl
      | content => exact absurd rfl hcall
  obtain ⟨hbody, hlen⟩ := Prod.mk.inj hpart
  exact ⟨hlen, fun hc => by rw [hbody, if_neg hc]⟩

/-- The length of a line is an `int`. -/
def Printable (line : List UInt8) : Prop := (line ++ crlf).length < 2 ^ 31

instance (line : List UInt8) : Decidable (Printable line) :=
  inferInstanceAs (Decidable ((line ++ crlf).length < 2 ^ 31))

theorem writeHeader_eq (dst : List UInt8) (f : Field) : writeHeader dst f.entry =
    if Printable f.line.text then .ok (dst ++ (f.line.text ++ crlf)) else .error .fault := by
  have htext : f.name ++ CText.text ": " ++ printStr (some f.value) ++ crlf =
      f.line.text ++ crlf := by
    simp [Field.line, Line.text, CText.text, printStr]
  rw [writeHeader, Field.entry]
  simp only [htext, printfAppend]
  rfl

theorem foldlM_writeHeader {fs : List Field} (h : ∀ f ∈ fs, Printable f.line.text)
    (dst : List UInt8) : (fs.map Field.entry).foldlM writeHeader dst =
      .ok (dst ++ fs.flatMap fun f => f.line.text ++ crlf) := by
  induction fs generalizing dst with
  | nil => simp; rfl
  | cons f fs ih =>
    rw [List.map_cons, List.foldlM_cons, writeHeader_eq, if_pos (h f (.head _))]
    change (fs.map Field.entry).foldlM writeHeader _ = _
    rw [ih fun f' hf' => h f' (.tail _ hf'), List.flatMap_cons, List.append_assoc]

theorem printable_of_foldlM {fs : List Field} {dst bytes : List UInt8}
    (h : (fs.map Field.entry).foldlM writeHeader dst = .ok bytes) :
    ∀ f ∈ fs, Printable f.line.text := by
  induction fs generalizing dst with
  | nil => simp
  | cons f fs ih =>
    rw [List.map_cons, List.foldlM_cons, writeHeader_eq] at h
    split at h
    · rename_i hf
      intro f' hf'
      rcases List.mem_cons.mp hf' with rfl | hf'
      · exact hf
      · exact ih h f' hf'
    · exact nomatch h

theorem writeStartLine_compose (h : Composes m calls) (dst : List UInt8) :
    writeStartLine (compose m calls) dst =
      if Printable m.start.text then .ok (dst ++ (m.start.text ++ crlf)) else .error .fault := by
  have hvalid := m.valid
  change writeStartLine (startPart (compose m calls)) dst = _
  rw [startPart_compose h]
  cases hs : m.start with
  | request method uri version =>
    have htext : printStr (methodStr method) ++ CText.text " " ++ uri ++ CText.text " " ++
        (printStr (versionStr version) ++ crlf) =
        (Start.request method uri version).text ++ crlf := by
      simp [Start.text, CText.text]
    exact congrArg (fun s => if s.length < 2 ^ 31 then Except.ok (dst ++ s) else .error Fault.fault)
      htext
  | response status version =>
    have htext : printStr (versionStr version) ++ CText.text " " ++ printStr (statusStr status) ++
        crlf = (Start.response status version).text ++ crlf := by
      simp [Start.text, CText.text]
    exact congrArg (fun s => if s.length < 2 ^ 31 then Except.ok (dst ++ s) else .error Fault.fault)
      htext

/-- The lines of a message. -/
def lines (m : Message) (calls : List Call) : List Line := (sent m calls).map Field.line

theorem crlf_flatMap (fs : List Field) :
    crlf ++ fs.flatMap (fun f => f.line.text ++ crlf) = block (fs.map Field.line) ++ crlf := by
  induction fs with
  | nil => rfl
  | cons f fs ih =>
    rw [List.flatMap_cons, List.append_assoc, ih, List.map_cons, block_cons, List.cons_append,
      List.cons_append, List.append_assoc]
    rfl

/-- All lines of the message can be printed. -/
def AllPrintable (m : Message) : Prop :=
  Printable m.start.text ∧ ∀ f ∈ m.fields, Printable f.line.text

/-- The bytes of the message. -/
def bytes (m : Message) (calls : List Call) : List UInt8 :=
  m.start.text ++ (block (lines m calls) ++ (blankLine ++ m.content))

theorem writeToBuf_compose (h : Composes m calls) (hp : AllPrintable m) :
    writeToBuf (compose m calls) [] = .ok (bytes m calls) := by
  obtain ⟨hlen, hbody⟩ := content_compose h
  have hcontent : (if (compose m calls).bodyLen = 0 then []
      else ((compose m calls).body.getD []).take (compose m calls).bodyLen) = m.content := by
    by_cases hc : m.content = []
    · simp [hlen, hc]
    · rw [hlen, if_neg (by simpa using hc), hbody hc]
      exact List.take_length
  have hsent : ∀ f ∈ sent m calls, Printable f.line.text := fun f hf =>
    hp.2 f ((sent_perm h).mem_iff.mp hf)
  rw [writeToBuf, writeStartLine_compose h, if_pos hp.1, headers_eq h]
  change (do
    let dst ← (sent m calls).map Field.entry |>.foldlM writeHeader ([] ++ (m.start.text ++ crlf))
    pure (dst ++ crlf ++ _)) = _
  rw [foldlM_writeHeader hsent, hcontent]
  change Except.ok _ = _
  rw [bytes, lines, blankLine]
  have hblock := crlf_flatMap (sent m calls)
  simp only [List.nil_append, List.append_assoc] at hblock ⊢
  rw [← List.append_assoc crlf, hblock, List.append_assoc]

theorem printable_of_writeToBuf (h : Composes m calls) {out : List UInt8}
    (hw : writeToBuf (compose m calls) [] = .ok out) : AllPrintable m := by
  rw [writeToBuf, writeStartLine_compose h, headers_eq h] at hw
  split at hw
  · rename_i hstart
    cases hf : (List.map Field.entry (sent m calls)).foldlM writeHeader
        ([] ++ (m.start.text ++ crlf)) with
    | ok out' =>
      exact ⟨hstart, fun f hm => printable_of_foldlM hf f ((sent_perm h).mem_iff.mpr hm)⟩
    | error e =>
      change (do
        let dst ← (sent m calls).map Field.entry |>.foldlM writeHeader
          ([] ++ (m.start.text ++ crlf))
        pure (dst ++ crlf ++ _)) = _ at hw
      rw [hf] at hw
      exact nomatch hw
  · exact nomatch hw

theorem methodOf_methodStr {method : Method} (h : method ≠ .invalid) :
    methodOf (printStr (methodStr method)) = some method ∧
      chr ' ' ∉ printStr (methodStr method) ∧ OneLine (printStr (methodStr method)) := by
  cases method with
  | invalid => exact absurd rfl h
  | _ => decide +kernel

theorem verOf_versionStr {version : Ver} (h : version ≠ .invalid) :
    verOf (lastChar (printStr (versionStr version))) = some version ∧
      printStr (versionStr version) ≠ [] ∧ chr ' ' ∉ printStr (versionStr version) ∧
      OneLine (printStr (versionStr version)) := by
  cases version with
  | invalid => exact absurd rfl h
  | _ => decide +kernel

theorem statusOf_statusStr {status : Status} (h : status ≠ .invalid) :
    (scanInt (printStr (statusStr status))).bind statusOf = some status ∧
      OneLine (printStr (statusStr status)) := by
  cases status with
  | invalid => exact absurd rfl h
  | _ => decide +kernel

theorem oneLine_cons_space {s : List UInt8} (h : OneLine s) : OneLine (chr ' ' :: s) := fun c hc =>
  (List.mem_cons.mp hc).elim (fun h => h ▸ by decide) (h c)

theorem Start.Valid.oneLine {start : Start} (h : start.Valid) : OneLine start.text := by
  cases start with
  | request method uri version =>
    exact (methodOf_methodStr h.1).2.2.append (oneLine_cons_space (h.2.2.1.append
      (oneLine_cons_space (verOf_versionStr h.2.2.2).2.2.2)))
  | response status version =>
    exact (verOf_versionStr h.2).2.2.2.append (oneLine_cons_space (statusOf_statusStr h.1).2)

/-- The start line of a message is parsed as it was set. -/
theorem parseStartLine_start {start : Start} (h : start.Valid) (r : List UInt8) :
    ∃ msg, parseStartLine (create start.type (start.text ++ (crlf ++ r))) = .ok (msg, true) ∧
      HasStart msg start ∧ msg.buf = start.text ++ (crlf ++ r) ∧ msg.headers = [] ∧
      msg.parsingOffset = start.text.length + 2 := by
  have hbuf : (create start.type (start.text ++ (crlf ++ r))).buf = start.text ++ (crlf ++ r) := rfl
  have hparse := parseStartLine_line h.oneLine hbuf
  cases start with
  | request method uri version =>
    obtain ⟨hmethod, hmspace, hmline⟩ := methodOf_methodStr h.1
    obtain ⟨hver, -, hvspace, hvline⟩ := verOf_versionStr h.2.2.2
    refine ⟨{ create .request (Start.text (.request method uri version) ++ (crlf ++ r)) with
        method
        ver := version
        methodSpUri := some (printStr (methodStr method) ++ chr ' ' :: uri)
        uri := some uri
        versionCrlf := some (printStr (versionStr version) ++ crlf)
        parsingOffset := (Start.text (.request method uri version)).length + 2
        startLine := true }, hparse.trans ?_, ⟨rfl, rfl, rfl⟩, rfl, rfl, rfl⟩
    simp only [Start.type, create, Start.text]
    rw [parseRequestLine_eq hmspace hmline h.2.2.1 hvspace hvline, hver, hmethod]
    rfl
  | response status version =>
    obtain ⟨hver, hne, hvspace, hvline⟩ := verOf_versionStr h.2
    obtain ⟨hstatus, hsline⟩ := statusOf_statusStr h.1
    refine ⟨{ create .response (Start.text (.response status version) ++ (crlf ++ r)) with
        status
        ver := version
        version := some (Start.text (.response status version))
        statusSpReason := some (printStr (statusStr status))
        parsingOffset := (Start.text (.response status version)).length + 2
        startLine := true }, hparse.trans ?_, ⟨rfl, rfl⟩, rfl, rfl, rfl⟩
    simp only [Start.type, create, Start.text]
    rw [parseStatusLine_eq hne hvspace hvline hsline, hver, hstatus]

theorem lines_ne_nil (h : Composes m calls) : ∃ l ls, lines m calls = l :: ls := by
  refine List.exists_cons_of_ne_nil fun hnil => ?_
  have hmem : m.contentLengthField ∈ m.fields := by
    rw [Message.fields, Message.contentFields]
    split <;> simp
  have : m.contentLengthField ∈ sent m calls := (sent_perm h).mem_iff.mpr hmem
  rw [List.map_eq_nil_iff.mp hnil] at this
  exact nomatch this

/-- The bytes of a message are parsed up to their content. -/
theorem parse_bytes (h : Composes m calls) :
    ∃ msg : Msg, parse m.start.type (bytes m calls) = .ok (parseBody msg) ∧
      HasStart msg m.start ∧ msg.headers = store [] (readLines (lines m calls)) ∧
      msg.buf.drop msg.parsingOffset = m.content ∧ msg.parsingOffset ≤ msg.buf.length := by
  obtain ⟨l, ls, hlines⟩ := lines_ne_nil h
  have hbytes : bytes m calls = m.start.text ++ (crlf ++ (l.text ++ block ls ++
      (blankLine ++ m.content))) := by
    rw [bytes, hlines, block_cons]
    rfl
  obtain ⟨msg, hparse, hstart, hbuf, hheaders, hoffset⟩ :=
    parseStartLine_start m.valid (l.text ++ block ls ++ (blankLine ++ m.content))
  have hdrop : msg.buf.drop (msg.parsingOffset - 2) =
      block (l :: ls) ++ (blankLine ++ m.content) := by
    rw [hbuf, hoffset, Nat.add_sub_cancel, List.drop_left, block_cons]
    rfl
  have hread := parseHeaders_lines (by omega) hdrop
  obtain ⟨msg', hmsg'⟩ : ∃ msg' : Msg, msg' = { msg with
      parsingOffset := msg.parsingOffset - 2 + (block (l :: ls)).length + 4
      headers := store msg.headers (readLines (l :: ls))
      hasHeaders := true } := ⟨_, rfl⟩
  rw [← hmsg'] at hread
  have hcontent : msg'.buf.drop msg'.parsingOffset = m.content := by
    have hsplit : block (l :: ls) ++ (blankLine ++ m.content) =
        (block (l :: ls) ++ blankLine) ++ m.content := (List.append_assoc _ _ _).symm
    rw [hmsg']
    change msg.buf.drop (msg.parsingOffset - 2 + (block (l :: ls)).length + 4) = _
    rw [Nat.add_assoc, ← List.drop_drop, hdrop, hsplit]
    exact List.drop_left' (by rw [List.length_append]; rfl)
  refine ⟨msg', ?_, ?_, ?_, hcontent, ?_⟩
  · rw [hbytes, parse, hparse]
    change (parseHeaders msg).bind _ = _
    rw [hread]
    rfl
  · rw [hmsg']
    revert hstart
    cases m.start <;> exact id
  · rw [hmsg', hlines, hheaders]
  · have hlen := congrArg List.length hdrop
    rw [hmsg']
    simp only [List.length_drop, List.length_append] at hlen ⊢
    have : blankLine.length = 4 := rfl
    omega

/-- The last step of parsing keeps the headers and the start line. -/
theorem parseBody_keeps (msg : Msg) (start : Start) :
    (parseBody msg).1.headers = msg.headers ∧
      (HasStart msg start → HasStart (parseBody msg).1 start) := by
  have h : (parseBody msg).1.headers = msg.headers ∧
      (parseBody msg).1.method = msg.method ∧ (parseBody msg).1.uri = msg.uri ∧
      (parseBody msg).1.status = msg.status ∧ (parseBody msg).1.ver = msg.ver := by
    rw [parseBody]
    split
    · split
      · exact ⟨rfl, rfl, rfl, rfl, rfl⟩
      · split <;> exact ⟨rfl, rfl, rfl, rfl, rfl⟩
    · split <;> exact ⟨rfl, rfl, rfl, rfl, rfl⟩
  obtain ⟨hheaders, hmethod, huri, hstatus, hver⟩ := h
  refine ⟨hheaders, fun hstart => ?_⟩
  cases start with
  | request => exact ⟨hmethod.trans hstart.1, huri.trans hstart.2.1, hver.trans hstart.2.2⟩
  | response => exact ⟨hstatus.trans hstart.1, hver.trans hstart.2⟩

theorem Field.line_value (f : Field) : f.line.value = f.value := by
  have hspace : f.line.value = f.value.dropWhile isspace :=
    List.dropWhile_cons_of_pos (by decide)
  rw [hspace]
  cases hv : f.value with
  | nil => rfl
  | cons c v => exact List.dropWhile_cons_of_neg (by simp [f.trimmed c (by simp [hv])])

theorem Field.line_key (f : Field) : f.line.key = f.name := f.lower

theorem distinctNames_readLines (h : Composes m calls) :
    DistinctNames (readLines (lines m calls)) := by
  have hkeys : ((lines m calls).map Line.key).Nodup := by
    rw [lines, List.map_map, show Line.key ∘ Field.line = Field.name from funext Field.line_key]
    exact nodup_sent h
  exact (keys_readLines _).nodup hkeys

/-- What a parsed message has for a header. -/
theorem store_readLines (h : Composes m calls) :
    store [] (readLines (lines m calls)) = readLines (lines m calls) :=
  (store_distinct (by simpa using distinctNames_readLines h)).trans (List.nil_append _)

theorem getHeader_compose (h : Composes m calls) {f : Field} (hf : f ∈ sent m calls) :
    getHeader (compose m calls) f.name = some f.value := by
  have hdistinct : DistinctNames ((sent m calls).map Field.entry) := by
    rw [DistinctNames, List.map_map]
    exact nodup_sent h
  have hget := hdistinct.get (List.mem_map_of_mem hf)
  rw [getHeader, headers_eq h]
  exact congrArg Option.join hget

/-- A header with the empty value takes the next line for its value, or has none. -/
theorem value_ne_nil_of_roundTrips (h : Composes m calls) (hr : RoundTrips m calls) :
    AllPrintable m ∧ ∀ f ∈ m.fields, f.value ≠ [] := by
  obtain ⟨msg, hparse, -, hheaders, -⟩ := parse_bytes h
  rw [store_readLines h] at hheaders
  have hkeep := (parseBody_keeps msg m.start).1
  obtain ⟨out, msg', hwrite, hparse', -, hget, -, -⟩ := hr
  have hprintable := printable_of_writeToBuf h hwrite
  refine ⟨hprintable, ?_⟩
  by_contra hempty
  obtain ⟨f, hf, hvalue⟩ : ∃ f ∈ m.fields, f.value = [] := by simpa using hempty
  obtain ⟨l, hl, hv, v, hne, hread⟩ := readLines_blank
    ⟨f.line, List.mem_map_of_mem ((sent_perm h).mem_iff.mpr hf), f.line_value.trans hvalue⟩
  obtain ⟨f', hf', rfl⟩ := List.mem_map.mp hl
  rw [writeToBuf_compose h hprintable] at hwrite
  obtain rfl := Except.ok.inj hwrite
  have hmsg' : (parseBody msg).1 = msg' :=
    congrArg Prod.fst (Except.ok.inj (hparse.symm.trans hparse'))
  have hgot : getHeader msg' f'.name = v := by
    rw [← hmsg', getHeader, hkeep, hheaders, ← f'.line_key,
      (distinctNames_readLines h).get hread]
    rfl
  rw [hget, getHeader_compose h hf', ← f'.line_value, hv] at hgot
  exact hne hgot.symm

/-- Without empty values, all headers and the content are parsed as they were set. -/
theorem roundTrips_of_value_ne_nil (h : Composes m calls) (hprintable : AllPrintable m)
    (hne : ∀ f ∈ m.fields, f.value ≠ []) : RoundTrips m calls := by
  have hmem (f : Field) : f ∈ sent m calls ↔ f ∈ m.fields := (sent_perm h).mem_iff
  obtain ⟨msg, hparse, hstart, hheaders, hdrop, hle⟩ := parse_bytes h
  rw [store_readLines h] at hheaders
  obtain ⟨hkeep, hkeepStart⟩ := parseBody_keeps msg m.start
  have hread : readLines (lines m calls) = (sent m calls).map Field.entry := by
    rw [readLines_eq, lines, List.map_map]
    · refine List.map_congr_left fun f hf => ?_
      change (f.line.key, some f.line.value) = f.entry
      rw [f.line_key, f.line_value]
      rfl
    · intro l hl
      obtain ⟨f, hf, rfl⟩ := List.mem_map.mp hl
      rw [f.line_value]
      exact hne f ((hmem f).mp hf)
  have hsame (msg' : Msg) (hmsg' : msg'.headers = msg.headers) (name : List UInt8) :
      getHeader msg' name = getHeader (compose m calls) name := by
    rw [getHeader, getHeader, hmsg', hheaders, hread, headers_eq h]
  have hlength : getHeader msg (CText.text "content-length") =
      some (printNat m.content.length) := by
    have hf : m.contentLengthField ∈ sent m calls := by
      rw [hmem, Message.fields, Message.contentFields]
      split <;> simp
    rw [hsame msg rfl]
    exact getHeader_compose h hf
  have hlen : msg.buf.length - msg.parsingOffset = m.content.length := by
    rw [← List.length_drop, hdrop]
  have hdigits : strtoull (printNat m.content.length) = some m.content.length := by
    have := strtoull_digits (r := []) (printNat_ne_nil m.content.length)
      (isdigit_toDigits m.content.length) (by simp)
      (by rw [decimal_printNat]; exact m.short)
    rwa [List.append_nil, decimal_printNat] at this
  have hbody : parseBody msg = ({ msg with
      body := some m.content
      buf := msg.buf.set (msg.parsingOffset + m.content.length) 0
      bodyLen := m.content.length
      parsingOffset := 0
      hasBody := true }, true) := by
    rw [parseBody, hlength]
    simp only [hdigits, hlen, hdrop, gt_iff_lt, Nat.lt_irrefl, if_false, List.take_length]
  refine ⟨bytes m calls, (parseBody msg).1, writeToBuf_compose h hprintable, ?_,
    hkeepStart hstart, hsame _ hkeep, ?_, ?_⟩
  · rw [hparse, hbody]
  · rw [hbody]
    rfl
  · rw [hbody]

/-- A parsed message is the one that was composed if and only if no header has the empty value,
and no line is too long to be printed. -/
theorem roundTrips_iff (h : Composes m calls) :
    RoundTrips m calls ↔ AllPrintable m ∧ ∀ f ∈ m.fields, f.value ≠ [] :=
  ⟨value_ne_nil_of_roundTrips h, fun hm => roundTrips_of_value_ne_nil h hm.1 hm.2⟩

/-- A request with one header. -/
def greeting (value : List UInt8) (hline : OneLine value)
    (htrimmed : ∀ c ∈ value.head?, isspace c = false) : Message where
  start := .request .post (CText.text "/a b") .v1_1
  headers := [⟨CText.text "accept", value, by decide, by decide, hline, htrimmed⟩]
  content := CText.text "hi"
  contentType := CText.text "text/plain"
  valid := by simp [Start.Valid]; decide
  distinct := by simp
  other := by simp; decide
  oneLine := by decide
  trimmed := by decide
  short := by decide

/-- The content may be set first. -/
def contentFirst (m : Message) : List Call := .content :: .start :: m.headers.map .header

theorem roundTrips_iff_greeting :
    Composes (greeting (CText.text "*/*") (by decide) (by decide))
        (contentFirst (greeting (CText.text "*/*") (by decide) (by decide))) ∧
      RoundTrips (greeting (CText.text "*/*") (by decide) (by decide))
        (contentFirst (greeting (CText.text "*/*") (by decide) (by decide))) :=
  ⟨.swap _ _ _, (roundTrips_iff (.swap _ _ _)).mpr ⟨⟨by decide, by decide⟩, by decide⟩⟩

theorem not_roundTrips_empty :
    Composes (greeting [] (by decide) (by decide))
        (contentFirst (greeting [] (by decide) (by decide))) ∧
      ¬ RoundTrips (greeting [] (by decide) (by decide))
        (contentFirst (greeting [] (by decide) (by decide))) :=
  ⟨.swap _ _ _, fun h => absurd (value_ne_nil_of_roundTrips (.swap _ _ _) h).2 (by decide)⟩

end Libuo.HttpRoundTrip
