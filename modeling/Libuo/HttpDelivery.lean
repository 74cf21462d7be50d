import Libuo.HttpReceiveChunks
import Libuo.HttpRoundTrip

/-!
# Messages that are delivered

A message that ends where its content length says can be cut into chunks in any way, if no part of
its content has an empty line that could be taken for the end of the headers. This holds for the
messages that are composed and written by the other side, too.
-/

namespace Libuo.HttpDelivery
open CStrings CText HttpMsg HttpHeaders HttpParseSafety HttpRejected HttpReceive HttpRoundTrip
open HttpServer (Event)

variable {finish : Msg → Msg} {type : MsgType} {bytes p c : List UInt8} {msg started : Msg}
  {n : ℕ}

/-- The bytes begin with a start line and headers, up to which they are parsed as `msg`. -/
def Headed (type : MsgType) (bytes : List UInt8) (msg : Msg) : Prop :=
  ∃ started, parseStartLine (create type bytes) = .ok (started, true) ∧
    parseHeaders started = .ok (msg, true)

/-- The bytes are a message with a content length, and end with its content; `msg` has the headers,
and `n` is the length. -/
structure Framed (type : MsgType) (bytes : List UInt8) (msg : Msg) (n : ℕ) : Prop where
  headers : Headed type bytes msg
  length : ∃ value, getHeader msg (text "content-length") = some value ∧ strtoull value = some n
  ends : msg.parsingOffset + n = bytes.length

theorem Headed.buf (h : Headed type bytes msg) : msg.buf = bytes := by
  obtain ⟨started, hline, hheaders⟩ := h
  obtain ⟨-, hb, -⟩ | ⟨cr, -, hparsed⟩ := parseStartLine_cases hline
  · cases hb
  obtain ⟨-, ⟨-, hb, -⟩ | ⟨i, headers, -, -, rfl⟩⟩ := parseHeaders_cases hheaders
  · cases hb
  · exact hparsed.kept.buf

/-- A part of the message that has headers has those of the whole. -/
theorem Headed.part (h : Headed type (p ++ c) msg) {msg' : Msg} (h' : Headed type p msg') :
    appended msg' c = msg := by
  obtain ⟨started, hline₀, hheaders₀⟩ := h
  obtain ⟨started', hline, hheaders⟩ := h'
  obtain ⟨-, hb, -⟩ | ⟨cr, hcr, -⟩ := parseStartLine_cases hline
  · cases hb
  rw [show create type (p ++ c) = appended (create type p) c from rfl,
    parseStartLine_appended hcr, hline] at hline₀
  obtain rfl : appended started' c = started := (Prod.mk.inj (Except.ok.inj hline₀)).1
  rw [parseHeaders_appended hheaders] at hheaders₀
  exact (Prod.mk.inj (Except.ok.inj hheaders₀)).1

theorem offset_le (h : parseHeaders started = .ok (msg, true)) :
    msg.parsingOffset ≤ msg.buf.length := by
  obtain ⟨hoffset, ⟨-, hb, -⟩ | ⟨i, headers, hi, -, rfl⟩⟩ := parseHeaders_cases h
  · cases hb
  · exact hi.le hoffset

/-- With these headers, the body is complete as soon as there are enough bytes. -/
theorem parseBody_length {value : List UInt8}
    (hlength : getHeader msg (text "content-length") = some value)
    (hvalue : strtoull value = some n) :
    (parseBody msg).2 = true ↔ n ≤ msg.buf.length - msg.parsingOffset := by
  rw [parseBody, hlength]
  simp only [hvalue]
  split
  · exact iff_of_false Bool.false_ne_true (by omega)
  · exact iff_of_true rfl (by omega)

theorem Framed.complete (h : Framed type bytes msg n) (finish : Msg → Msg) :
    Reached finish type bytes (finish (parseBody msg).1) [.afterRecvHeaders, .afterRecvMsg] := by
  obtain ⟨started, hline, hheaders⟩ := h.headers
  obtain ⟨value, hlength, hvalue⟩ := h.length
  refine .complete hline hheaders ((parseBody_length hlength hvalue).mpr ?_)
  have hends := h.ends
  rw [h.headers.buf]
  omega

theorem Framed.minimal (h : Framed type bytes msg n) (hp : p <+: bytes) (hne : p ≠ bytes) :
    ¬ Complete type p := by
  obtain ⟨c, rfl⟩ := hp
  intro hcomplete
  cases honce : afterRecv id (create type p) with
  | error e =>
    rw [Complete, honce] at hcomplete
    cases hcomplete
  | ok r =>
    obtain ⟨msg₁, events⟩ := r
    have hreached := reached_iff.mp honce
    have hmem := hreached.complete_iff.mp hcomplete
    cases hreached with
    | line | started | headed => simp at hmem
    | @complete started' msg' hline hheaders hbody =>
      obtain rfl := h.headers.part ⟨started', hline, hheaders⟩
      obtain ⟨value, hlength, hvalue⟩ := h.length
      have henough := (@parseBody_length msg' n value hlength hvalue).mp hbody
      have hends : msg'.parsingOffset + n = (p ++ c).length := h.ends
      have hbuf : msg'.buf = p := List.append_cancel_right h.headers.buf
      have hinside := offset_le hheaders
      have hoffset : (appended msg' c).parsingOffset = msg'.parsingOffset := rfl
      have hc : c.length = 0 := by
        rw [hbuf] at henough hinside
        rw [List.length_append] at hends
        omega
      rw [List.length_eq_zero_iff.mp hc, List.append_nil] at hne
      exact hne rfl

/-- Where the content is looked through for another end of the headers: from the end of the
headers, without the last byte of the message. -/
def scanned (bytes : List UInt8) (msg : Msg) : List UInt8 :=
  cstr ((bytes.drop (msg.parsingOffset - 2)).dropLast)

theorem drop_dropLast_prefix (hp : p <+: bytes) (hne : p ≠ bytes) (k : ℕ) :
    p.drop k <+: (bytes.drop k).dropLast := by
  obtain ⟨c, rfl⟩ := hp
  have hc : c ≠ [] := by
    rintro rfl
    exact hne (List.append_nil _).symm
  by_cases hk : k ≤ p.length
  · rw [List.drop_append_of_le_length hk, List.dropLast_append_of_ne_nil hc]
    exact List.prefix_append _ _
  · rw [List.drop_eq_nil_of_le (by omega)]
    exact List.nil_prefix

theorem cstr_mono (h : p <+: bytes) : cstr p <+: cstr bytes := by
  obtain ⟨c, rfl⟩ := h
  exact cstr_prefix p c

/-- When no part of the content ends the headers, no chunk does. -/
theorem Framed.once (h : Framed type bytes msg n) (hscan : ¬ blankLine <:+: scanned bytes msg)
    (hp : p ++ c <+: bytes) : ¬ RescannedAt type p c := by
  rintro ⟨msg', hheaded, hincomplete, hfound⟩
  have hne : p ++ c ≠ bytes := by
    rintro rfl
    exact hincomplete ((h.complete id).complete_iff.mpr (by simp))
  obtain ⟨d, rfl⟩ := hp
  have hreached := headed_iff.mp hheaded
  have hoffset : msg'.parsingOffset = msg.parsingOffset := by
    cases hreached with
    | @headed started' msg' hline hheaders hbody =>
      rw [List.append_assoc] at h
      rw [(parseBody_place hbody).2, ← h.headers.part ⟨started', hline, hheaders⟩]
      rfl
  rw [hoffset] at hfound
  have hpart := drop_dropLast_prefix (List.prefix_append _ _) hne (msg.parsingOffset - 2)
  exact hscan (hfound.trans (cstr_mono hpart).isInfix)

/-- A message cannot be cut into other parts than those that are received as they should. -/
theorem Framed.sendable (h : Framed type bytes msg n) (hscan : ¬ blankLine <:+: scanned bytes msg) :
    Sendable type bytes where
  complete := (h.complete id).complete_iff.mpr (by simp)
  minimal _ hp hne := h.minimal hp hne
  once _ _ hp := h.once hscan hp

/-- The end of a line is in every part that is long enough. -/
theorem lineEnd_part {cr : ℕ} (h : LineEnd (appended msg c) cr) (hlen : cr + 2 ≤ msg.buf.length) :
    LineEnd msg cr := by
  obtain ⟨hcr, hlf⟩ := h
  obtain ⟨hlt, hget, hbefore⟩ := List.idxOf?_eq_some_iff.mp hcr
  have hbuf : (appended msg c).buf = msg.buf ++ c := rfl
  refine ⟨List.idxOf?_eq_some_iff.mpr ⟨by simp; omega, ?_, fun j hj => ?_⟩, ?_⟩
  · simpa [hbuf, List.getElem_append_left (show cr < msg.buf.length by omega)] using hget
  · have := hbefore j hj
    simpa [hbuf, List.getElem_append_left (show j < msg.buf.length by omega)] using this
  · rwa [hbuf, List.getElem?_append_left (by omega)] at hlf

theorem strstr_part {needle s t : List UInt8} {i : ℕ} (hne : needle ≠ [])
    (h : strstr t needle = some i) (hst : s <+: t) (hlen : i + needle.length ≤ s.length) :
    strstr s needle = some i := by
  obtain ⟨r, rfl⟩ := hst
  obtain ⟨hat, hbefore⟩ := (strstr_eq_some hne).mp h
  refine (strstr_eq_some hne).mpr ⟨?_, fun j hj hfound => hbefore j hj ?_⟩
  · rw [List.drop_append_of_le_length (by omega)] at hat
    exact List.prefix_of_prefix_length_le hat (List.prefix_append _ _)
      (by rw [List.length_drop]; omega)
  · rw [List.drop_append_of_le_length (by omega)]
    exact hfound.trans (List.prefix_append _ _)

theorem headersEnd_part {i : ℕ} (h : HeadersEnd (appended msg c) i)
    (hlen : msg.parsingOffset - 2 + i + 4 ≤ msg.buf.length) : HeadersEnd msg i := by
  obtain ⟨d, hd⟩ : ∃ d, d = msg.buf.drop (msg.parsingOffset - 2) := ⟨_, rfl⟩
  have hdrop : (appended msg c).buf.drop ((appended msg c).parsingOffset - 2) = d ++ c := by
    change (msg.buf ++ c).drop (msg.parsingOffset - 2) = _
    rw [hd, List.drop_append_of_le_length (by omega)]
  have hd' : i + 4 ≤ d.length := by
    rw [hd, List.length_drop]
    omega
  rw [HeadersEnd, hdrop] at h
  rw [HeadersEnd, ← hd]
  have hpart := cstr_prefix d c
  refine strstr_part (by decide) h hpart ?_
  change i + 4 ≤ _
  by_cases hzero : 0 ∈ d
  · obtain ⟨r, hr, -⟩ := exists_cstr hzero
    have hsame : cstr (d ++ c) = cstr d := by
      conv_lhs => rw [hr]
      rw [List.append_assoc, List.cons_append, cstr_append_zero]
      exact cstr_eq (zero_not_mem_cstr d)
    have hat := ((strstr_eq_some (by decide)).mp h).1.length_le
    rw [hsame, List.length_drop, show blankLine.length = 4 from rfl] at hat
    omega
  · rw [cstr_eq hzero]
    exact hd'

/-- The part up to the end of the headers has the headers, and no body. -/
theorem Framed.headed (h : Framed type (p ++ c) msg n) (hp : p.length = msg.parsingOffset)
    (hc : c ≠ []) : ∃ msg', headed type p = some msg' ∧ msg'.parsingOffset = msg.parsingOffset := by
  obtain ⟨started, hline, hheaders⟩ := h.headers
  obtain ⟨-, hb, -⟩ | ⟨cr, hcr, hparsed⟩ := parseStartLine_cases hline
  · cases hb
  obtain ⟨hoffset, ⟨-, hb, -⟩ | ⟨i, headers, hi, -, hmsg⟩⟩ := parseHeaders_cases hheaders
  · cases hb
  have hstart : started.parsingOffset = cr + 2 := (hparsed.parsed rfl).2.2
  have hplace : p.length = started.parsingOffset - 2 + i + 4 := by rw [hp, hmsg]
  have hcr' : LineEnd (create type p) cr := by
    have hwhole : LineEnd (appended (create type p) c) cr := hcr
    apply lineEnd_part hwhole
    change cr + 2 ≤ p.length
    omega
  have hparse : parseStartLine (create type (p ++ c)) =
      (parseStartLine (create type p)).map fun r => (appended r.1 c, r.2) :=
    parseStartLine_appended hcr' c
  rw [hline] at hparse
  cases hpart : parseStartLine (create type p) with
  | error e =>
    rw [hpart] at hparse
    cases hparse
  | ok r =>
    obtain ⟨started', b⟩ := r
    rw [hpart] at hparse
    obtain ⟨rfl, rfl⟩ := Prod.mk.inj (Except.ok.inj hparse)
    obtain ⟨-, hb, -⟩ | ⟨cr', -, hparsed'⟩ := parseStartLine_cases hpart
    · cases hb
    have hbuf : started'.buf = p := hparsed'.kept.buf
    have hsame : (appended started' c).parsingOffset = started'.parsingOffset := rfl
    have hi' : HeadersEnd started' i := by
      apply headersEnd_part hi
      rw [hbuf, hplace, hsame]
    have hmore := parseHeaders_found (hsame ▸ hoffset) hi' c
    rw [hheaders] at hmore
    cases hfound : parseHeaders started' with
    | error e =>
      rw [hfound] at hmore
      cases hmore
    | ok r =>
      obtain ⟨msg', b⟩ := r
      rw [hfound] at hmore
      obtain ⟨hmsg', rfl⟩ := Prod.mk.inj (Except.ok.inj hmore)
      have hbody : (parseBody msg').2 = false := by
        by_contra hbody
        have hcomplete : Reached id type p _ _ :=
          .complete hpart hfound (by simpa using hbody)
        refine h.minimal (List.prefix_append p c) ?_ (hcomplete.complete_iff.mpr (by simp))
        intro heq
        exact hc (List.append_right_eq_self.mp heq.symm)
      refine ⟨_, headed_iff.mpr (.headed hpart hfound hbody), ?_⟩
      rw [(parseBody_place hbody).2, hmsg']
      rfl

/-- An empty line in a part of the content is met by some chunk. -/
theorem Framed.rescanned (h : Framed type bytes msg n) (hfound : blankLine <:+: scanned bytes msg) :
    ∃ p c d, bytes = p ++ (c ++ d) ∧ p ≠ [] ∧ c ≠ [] ∧ d ≠ [] ∧ RescannedAt type p c := by
  have hlen := hfound.length_le
  have hcstr : (cstr ((bytes.drop (msg.parsingOffset - 2)).dropLast)).length ≤ _ :=
    (List.takeWhile_prefix _).length_le
  have hends := h.ends
  rw [scanned, show blankLine.length = 4 from rfl] at hlen
  rw [List.length_dropLast, List.length_drop] at hcstr
  obtain ⟨p, c, hbytes, hp⟩ : ∃ p c, bytes = p ++ c ∧ p.length = msg.parsingOffset :=
    ⟨_, _, (List.take_append_drop msg.parsingOffset bytes).symm, by
      rw [List.length_take]
      omega⟩
  subst hbytes
  rw [List.length_append] at hcstr hends
  have hc : c ≠ [] := List.ne_nil_of_length_pos (by omega)
  have hcut : c.dropLast ++ [c.getLast hc] = c := List.dropLast_append_getLast hc
  obtain ⟨msg', hheaded, hoffset⟩ := h.headed hp hc
  have hpart : p ++ c.dropLast <+: p ++ c :=
    (List.prefix_append_right_inj p).mpr (List.dropLast_prefix c)
  have hshort : p ++ c.dropLast ≠ p ++ c := by
    intro heq
    have hsame := congrArg List.length (List.append_cancel_left heq)
    have hpos := List.length_pos_of_ne_nil hc
    rw [List.length_dropLast] at hsame
    omega
  have hdrop : (p ++ c.dropLast).drop (msg.parsingOffset - 2) =
      ((p ++ c).drop (msg.parsingOffset - 2)).dropLast := by
    rw [List.drop_append_of_le_length (by omega), List.drop_append_of_le_length (by omega),
      List.dropLast_append_of_ne_nil hc]
  refine ⟨p, c.dropLast, [c.getLast hc], by rw [hcut], ?_, ?_, List.cons_ne_nil _ _,
    msg', hheaded, h.minimal hpart hshort, ?_⟩
  · rintro rfl
    cases hheaded
  · exact List.ne_nil_of_length_pos (by rw [List.length_dropLast]; omega)
  · rw [hoffset, hdrop]
    exact hfound

/-- The bytes are received as if they came at once, whatever the chunks. -/
def Delivered (finish : Msg → Msg) (type : MsgType) (bytes : List UInt8) : Prop :=
  ∀ chunks : List (List UInt8), (∀ c ∈ chunks, c ≠ []) → chunks.flatten = bytes →
    AtOnce finish type chunks

theorem endsLast_of_minimal (hmin : ∀ q, q <+: bytes → q ≠ bytes → ¬ Complete type q)
    {chunks : List (List UInt8)} (hchunks : ∀ c ∈ chunks, c ≠ [])
    (hbytes : p ++ chunks.flatten = bytes) : EndsLast type p chunks := by
  induction chunks generalizing p with
  | nil => trivial
  | cons c chunks ih =>
    have hc : c ≠ [] := hchunks c (.head _)
    have hpart : p <+: bytes := ⟨_, hbytes⟩
    have hshort : p ≠ bytes := by
      intro heq
      rw [← heq, List.flatten_cons] at hbytes
      simp [hc] at hbytes
    rw [List.flatten_cons, ← List.append_assoc] at hbytes
    exact ⟨hmin p hpart hshort, ih (fun d hd => hchunks d (.tail _ hd)) hbytes⟩

theorem not_rescanned_of_once (honce : ∀ p c, p ++ c <+: bytes → ¬ RescannedAt type p c)
    {chunks : List (List UInt8)} (hbytes : p ++ chunks.flatten <+: bytes) :
    ¬ Rescanned type p chunks := by
  induction chunks generalizing p with
  | nil => exact id
  | cons c chunks ih =>
    rw [List.flatten_cons, ← List.append_assoc] at hbytes
    exact not_or.mpr ⟨honce p c ((List.prefix_append _ _).trans hbytes), ih hbytes⟩

theorem delivered_of_sendable (hs : Sendable type bytes) (finish : Msg → Msg) :
    Delivered finish type bytes := by
  intro chunks hchunks hbytes
  have hne : chunks ≠ [] := by
    rintro rfl
    exact complete_ne_nil hs.complete hbytes.symm
  rw [AtOnce, receiveAll_single,
    receiveAll_create_iff hne hchunks (endsLast_of_minimal hs.minimal hchunks hbytes)]
  exact not_rescanned_of_once hs.once (hbytes ▸ List.prefix_refl _)

/-- A message with a content length is received as if it came at once, whatever the chunks, if and
only if no part of its content has an empty line that ends the headers again. -/
theorem Framed.delivered_iff (h : Framed type bytes msg n) :
    Delivered finish type bytes ↔ ¬ blankLine <:+: scanned bytes msg := by
  refine ⟨fun hd hfound => ?_, fun hscan => delivered_of_sendable (h.sendable hscan) finish⟩
  obtain ⟨p, c, d, rfl, hp, hc, hd', hscan⟩ := h.rescanned hfound
  have hchunks : ∀ e ∈ [p, c, d], e ≠ [] := by simp [hp, hc, hd']
  have hbytes : [p, c, d].flatten = p ++ (c ++ d) := by simp
  have hlast : EndsLast type [] [p, c, d] :=
    endsLast_of_minimal (fun _ hq hne => h.minimal hq hne) hchunks hbytes
  have honce := hd _ hchunks hbytes
  rw [AtOnce, receiveAll_single,
    receiveAll_create_iff (List.cons_ne_nil _ _) hchunks hlast] at honce
  exact honce (.inr (.inl hscan))

variable {m : Message} {calls : List Call}

/-- The headers of a message that has been written end behind its lines. -/
theorem headed_bytes (h : Composes m calls) : ∃ started msg,
    parseStartLine (create m.start.type (HttpRoundTrip.bytes m calls)) = .ok (started, true) ∧
      parseHeaders started = .ok (msg, true) ∧
      HasStart msg m.start ∧ msg.headers = store [] (readLines (lines m calls)) ∧
      msg.buf = HttpRoundTrip.bytes m calls ∧
      msg.parsingOffset = m.start.text.length + (block (lines m calls)).length + 4 := by
  obtain ⟨l, ls, hlines⟩ := lines_ne_nil h
  have hbytes : HttpRoundTrip.bytes m calls = m.start.text ++ (crlf ++ (l.text ++ block ls ++
      (blankLine ++ m.content))) := by
    rw [HttpRoundTrip.bytes, hlines, block_cons]
    rfl
  obtain ⟨started, hline, hstart, hbuf, hheaders, hoffset⟩ :=
    parseStartLine_start m.valid (l.text ++ block ls ++ (blankLine ++ m.content))
  have hdrop : started.buf.drop (started.parsingOffset - 2) =
      block (l :: ls) ++ (blankLine ++ m.content) := by
    rw [hbuf, hoffset, Nat.add_sub_cancel, List.drop_left, block_cons]
    rfl
  refine ⟨started, _, hbytes ▸ hline, parseHeaders_lines (by omega) hdrop, ?_, ?_, ?_, ?_⟩
  · revert hstart
    cases m.start <;> exact id
  · simp only [hlines, hheaders]
  · rw [hbytes]
    exact hbuf
  · simp only [hlines, hoffset, Nat.add_sub_cancel]

/-- What a composed message is parsed as, up to its content. -/
theorem framed_bytes (h : Composes m calls) (hne : ∀ f ∈ m.fields, f.value ≠ []) :
    ∃ msg, Framed m.start.type (HttpRoundTrip.bytes m calls) msg m.content.length ∧
      HasStart msg m.start ∧
      (∀ name, getHeader msg name = getHeader (compose m calls) name) ∧
      (HttpRoundTrip.bytes m calls).drop (msg.parsingOffset - 2) = crlf ++ m.content := by
  have hmem (f : Field) : f ∈ sent m calls ↔ f ∈ m.fields := (sent_perm h).mem_iff
  obtain ⟨started, msg, hline, hheaders, hstart, hstore, hbuf, hoffset⟩ := headed_bytes h
  rw [store_readLines h] at hstore
  have hread : readLines (lines m calls) = (sent m calls).map Field.entry := by
    rw [readLines_eq, lines, List.map_map]
    · refine List.map_congr_left fun f hf => ?_
      change (f.line.key, some f.line.value) = f.entry
      rw [f.line_key, f.line_value]
      rfl
    · intro l hl
      obtain ⟨f, hf, rfl⟩ := List.mem_map.mp hl
      rw [f.line_value]
      exact hne f ((hmem f).mp hf)
  have hsame (name : List UInt8) : getHeader msg name = getHeader (compose m calls) name := by
    rw [getHeader, getHeader, hstore, hread, headers_eq h]
  have hlength : getHeader msg (CText.text "content-length") =
      some (printNat m.content.length) := by
    have hf : m.contentLengthField ∈ sent m calls := by
      rw [hmem, Message.fields, Message.contentFields]
      split <;> simp
    rw [hsame]
    exact getHeader_compose h hf
  have hdigits : strtoull (printNat m.content.length) = some m.content.length := by
    have := strtoull_digits (r := []) (printNat_ne_nil m.content.length)
      (isdigit_toDigits m.content.length) (by simp)
      (by rw [decimal_printNat]; exact m.short)
    rwa [List.append_nil, decimal_printNat] at this
  have hblank : blankLine = crlf ++ crlf := rfl
  have hcrlf : crlf.length = 2 := rfl
  refine ⟨msg, ⟨⟨started, hline, hheaders⟩, ⟨_, hlength, hdigits⟩, ?_⟩, hstart, hsame, ?_⟩
  · rw [hoffset, HttpRoundTrip.bytes, hblank]
    simp only [List.length_append, hcrlf]
    omega
  · have hsplit : HttpRoundTrip.bytes m calls =
        (m.start.text ++ block (lines m calls) ++ crlf) ++ (crlf ++ m.content) := by
      rw [HttpRoundTrip.bytes, hblank]
      simp only [List.append_assoc]
    rw [hsplit]
    refine List.drop_left' ?_
    simp only [hoffset, List.length_append, hcrlf]
    omega

/-- Where the content of a composed message is looked through. -/
theorem infix_scanned {content : List UInt8}
    (hdrop : bytes.drop (msg.parsingOffset - 2) = crlf ++ content) :
    blankLine <:+: scanned bytes msg ↔ blankLine <:+: crlf ++ cstr content.dropLast := by
  rw [scanned, hdrop]
  by_cases hc : content = []
  · subst hc
    exact iff_of_false (by decide) (by decide)
  · rw [List.dropLast_append_of_ne_nil hc, cstr_append (by decide)]

/-- A received message has the start line, the headers and the content of the composed one. -/
structure Carries (msg : Msg) (m : Message) (calls : List Call) : Prop where
  start : HasStart msg m.start
  headers : ∀ name, getHeader msg name = getHeader (compose m calls) name
  content : msg.body.getD [] = m.content
  length : msg.bodyLen = m.content.length

/-- Whatever the chunks, one and the same message arrives: the message that was composed, with the
handlers for its headers and for all of it run once each. -/
def Arrives (finish : Msg → Msg) (m : Message) (calls : List Call) : Prop :=
  ∃ msg, Carries msg m calls ∧ ∀ bytes, writeToBuf (compose m calls) [] = .ok bytes →
    ∀ chunks : List (List UInt8), (∀ c ∈ chunks, c ≠ []) → chunks.flatten = bytes →
      (receiveAll finish (create m.start.type []) chunks).map outcome =
        .ok (msg, [.afterRecvHeaders, .afterRecvMsg])

/-- The part of the content before its last byte, up to a NUL, has no empty line, and does not
make one with the end of the headers. -/
def NoEmptyLine (content : List UInt8) : Prop := ¬ blankLine <:+: crlf ++ cstr content.dropLast

instance (content : List UInt8) : Decidable (NoEmptyLine content) :=
  inferInstanceAs (Decidable (¬ blankLine <:+: crlf ++ cstr content.dropLast))

theorem noEmptyLine_of_notMem {content : List UInt8} (h : chr '\r' ∉ content) :
    NoEmptyLine content := by
  intro hfound
  have hcount := hfound.sublist.count_le (chr '\r')
  have hcontent : (cstr content.dropLast).count (chr '\r') = 0 := by
    rw [List.count_eq_zero]
    intro hmem
    exact h (List.dropLast_subset _ ((List.takeWhile_prefix _).subset hmem))
  have hblank : blankLine.count (chr '\r') = 2 := by decide
  have hcrlf : crlf.count (chr '\r') = 1 := by decide
  rw [List.count_append, hcontent, hblank, hcrlf] at hcount
  omega

/-- What becomes of a complete message leaves it as it is, but for the place of the parsing
offset. -/
def KeepsMessage (finish : Msg → Msg) : Prop :=
  ∀ msg, ∃ offset, finish msg = { msg with parsingOffset := offset }

theorem keepsMessage_id : KeepsMessage id := fun msg => ⟨msg.parsingOffset, rfl⟩

theorem keepsMessage_fullyParsed (reqHandlers : ℕ) :
    KeepsMessage (HttpServer.fullyParsed reqHandlers) := fun _ => ⟨reqHandlers, rfl⟩

/-- The parsing offset says nothing about what the message has. -/
theorem carries_offset {offset : ℕ} :
    Carries { msg with parsingOffset := offset } m calls ↔ Carries msg m calls := by
  have hstart : HasStart { msg with parsingOffset := offset } m.start ↔ HasStart msg m.start := by
    cases m.start <;> rfl
  exact ⟨fun h => ⟨hstart.mp h.start, h.headers, h.content, h.length⟩,
    fun h => ⟨hstart.mpr h.start, h.headers, h.content, h.length⟩⟩

theorem parse_of_reached
    (h : Reached finish type bytes msg [.afterRecvHeaders, .afterRecvMsg]) :
    ∃ msg₀, HttpRoundTrip.parse type bytes = .ok (msg₀, true) ∧ msg = finish msg₀ := by
  cases h with
  | complete hline hheaders hbody =>
    refine ⟨_, ?_, rfl⟩
    rw [HttpRoundTrip.parse, hline]
    simp only [Except.bind, if_true, hheaders]
    exact congrArg Except.ok (Prod.ext rfl hbody)

theorem bytes_ne_nil (m : Message) (calls : List Call) : HttpRoundTrip.bytes m calls ≠ [] := by
  simp [HttpRoundTrip.bytes, blankLine, crlf, CText.text]

/-- A message that arrives is the one that was composed when its bytes are parsed as a whole. -/
theorem Arrives.keeps (hfinish : KeepsMessage finish) (h : Composes m calls)
    (hp : AllPrintable m) (ha : Arrives finish m calls) : RoundTrips m calls := by
  obtain ⟨msg, hcarries, hall⟩ := ha
  have hwrite := writeToBuf_compose h hp
  have hwhole := hall _ hwrite [HttpRoundTrip.bytes m calls] (by simp [bytes_ne_nil]) (by simp)
  rw [receiveAll_single] at hwhole
  cases honce : afterRecv finish (create m.start.type (HttpRoundTrip.bytes m calls)) with
  | error e =>
    rw [honce] at hwhole
    cases hwhole
  | ok r =>
    obtain ⟨msg', events⟩ := r
    rw [honce] at hwhole
    obtain ⟨rfl, hevents⟩ := Prod.mk.inj (Except.ok.inj hwhole)
    have hreached := reached_iff.mp honce
    have hlast : events = [.afterRecvHeaders, .afterRecvMsg] := by
      cases hreached with
      | complete => rfl
      | line | started | headed => simp [handlers] at hevents
    obtain ⟨msg₀, hparse, rfl⟩ := parse_of_reached (hlast ▸ hreached)
    obtain ⟨offset, hsame⟩ := hfinish msg₀
    rw [hsame, carries_offset] at hcarries
    exact ⟨_, msg₀, hwrite, hparse, hcarries.start, hcarries.headers, hcarries.content,
      hcarries.length⟩

/-- A message with its headers, of which the content has come, is the one that was composed. -/
theorem carries_parseBody {n : ℕ} (hframed : Framed m.start.type bytes msg n)
    (hn : n = m.content.length) (hstart : HasStart msg m.start)
    (hget : ∀ name, getHeader msg name = getHeader (compose m calls) name)
    (hdrop : bytes.drop (msg.parsingOffset - 2) = crlf ++ m.content) :
    Carries (parseBody msg).1 m calls := by
  obtain ⟨value, hlength, hvalue⟩ := hframed.length
  have hoffset : 2 ≤ msg.parsingOffset := by
    obtain ⟨started, -, hheaders⟩ := hframed.headers
    obtain ⟨hoffset, ⟨-, hb, -⟩ | ⟨i, headers, -, -, rfl⟩⟩ := parseHeaders_cases hheaders
    · cases hb
    · exact Nat.le_add_left_of_le (by decide)
  have hcontent : msg.buf.drop msg.parsingOffset = m.content := by
    rw [hframed.headers.buf, show msg.parsingOffset = msg.parsingOffset - 2 + 2 by omega,
      ← List.drop_drop, hdrop]
    rfl
  have hbody : parseBody msg = ({ msg with
      body := some m.content
      buf := msg.buf.set (msg.parsingOffset + m.content.length) 0
      bodyLen := m.content.length
      parsingOffset := 0
      hasBody := true }, true) := by
    have hlen : msg.buf.length - msg.parsingOffset = m.content.length := by
      rw [← List.length_drop, hcontent]
    rw [parseBody, hlength]
    simp only [hvalue, hn, hlen, hcontent, gt_iff_lt, Nat.lt_irrefl, if_false, List.take_length]
  refine ⟨(parseBody_keeps msg m.start).2 hstart, fun name => ?_, ?_, ?_⟩
  · rw [← hget name, getHeader, getHeader, (parseBody_keeps msg m.start).1]
  · rw [hbody]
    rfl
  · rw [hbody]

theorem sendable_bytes (h : Composes m calls) (hne : ∀ f ∈ m.fields, f.value ≠ [])
    (hscan : NoEmptyLine m.content) : Sendable m.start.type (HttpRoundTrip.bytes m calls) := by
  obtain ⟨msg, hframed, -, -, hdrop⟩ := framed_bytes h hne
  exact hframed.sendable (mt (infix_scanned hdrop).mp hscan)

theorem reached_bytes (hfinish : KeepsMessage finish) (h : Composes m calls)
    (hne : ∀ f ∈ m.fields, f.value ≠ []) :
    ∃ msg, Reached finish m.start.type (HttpRoundTrip.bytes m calls) msg
      [.afterRecvHeaders, .afterRecvMsg] ∧ Carries msg m calls := by
  obtain ⟨msg, hframed, hstart, hget, hdrop⟩ := framed_bytes h hne
  refine ⟨_, hframed.complete finish, ?_⟩
  obtain ⟨offset, hsame⟩ := hfinish (parseBody msg).1
  rw [hsame, carries_offset]
  exact carries_parseBody hframed rfl hstart hget hdrop

/-- A message that is composed, can be printed, and arrives in any chunks. -/
structure Deliverable (m : Message) (calls : List Call) : Prop where
  composes : Composes m calls
  printable : AllPrintable m
  values : ∀ f ∈ m.fields, f.value ≠ []
  content : NoEmptyLine m.content

theorem startLine_compose (h : Composes m calls) : (compose m calls).startLine = true := by
  have hstart : (startPart (compose m calls)).startLine =
      (HttpRoundTrip.started m.start).startLine :=
    congrArg Msg.startLine (startPart_compose h)
  have hline : (HttpRoundTrip.started m.start).startLine = true := by
    cases m.start <;> rfl
  exact hstart.trans hline

/-- What is written of the message can be cut into chunks in any way, and is parsed as the message
again. -/
structure Travels (m : Message) (calls : List Call) : Prop where
  starts : (compose m calls).startLine = true
  written : writeToBuf (compose m calls) [] = .ok (HttpRoundTrip.bytes m calls)
  sendable : Sendable m.start.type (HttpRoundTrip.bytes m calls)
  carried : ∀ finish, KeepsMessage finish → ∃ msg,
    Reached finish m.start.type (HttpRoundTrip.bytes m calls) msg
      [.afterRecvHeaders, .afterRecvMsg] ∧ Carries msg m calls

theorem Deliverable.travels (h : Deliverable m calls) : Travels m calls where
  starts := startLine_compose h.composes
  written := writeToBuf_compose h.composes h.printable
  sendable := sendable_bytes h.composes h.values h.content
  carried _ hfinish := reached_bytes hfinish h.composes h.values

theorem Travels.arrives (h : Travels m calls) (hfinish : KeepsMessage finish) :
    Arrives finish m calls := by
  obtain ⟨msg, hreached, hcarries⟩ := h.carried finish hfinish
  refine ⟨msg, hcarries, fun bytes hbytes chunks hchunks hflat => ?_⟩
  obtain rfl : HttpRoundTrip.bytes m calls = bytes := Except.ok.inj (h.written.symm.trans hbytes)
  have hat := delivered_of_sendable h.sendable finish chunks hchunks hflat
  rw [AtOnce, hflat, receiveAll_single, reached_iff.mpr hreached] at hat
  exact hat

/-- A composed message arrives, whatever the chunks, if and only if no header has the empty value
and its content has no empty line before its last byte. -/
theorem arrives_iff (hfinish : KeepsMessage finish) (h : Composes m calls)
    (hp : AllPrintable m) :
    Arrives finish m calls ↔ (∀ f ∈ m.fields, f.value ≠ []) ∧ NoEmptyLine m.content := by
  have hwrite := writeToBuf_compose h hp
  constructor
  · intro ha
    have hne := (value_ne_nil_of_roundTrips h (ha.keeps hfinish h hp)).2
    obtain ⟨msg, hframed, -, -, hdrop⟩ := framed_bytes h hne
    refine ⟨hne, fun hfound => ?_⟩
    obtain ⟨msg', -, hall⟩ := ha
    have hdelivered : Delivered finish m.start.type (HttpRoundTrip.bytes m calls) := by
      intro chunks hchunks hbytes
      rw [AtOnce, hall _ hwrite chunks hchunks hbytes, hbytes,
        hall _ hwrite [_] (by simp [bytes_ne_nil]) (by simp)]
    exact hframed.delivered_iff.mp hdelivered ((infix_scanned hdrop).mpr hfound)
  · rintro ⟨hne, hscan⟩
    exact (Deliverable.travels ⟨h, hp, hne, hscan⟩).arrives hfinish

theorem arrives_iff_greeting :
    Arrives id (greeting (CText.text "*/*") (by decide) (by decide))
      (contentFirst (greeting (CText.text "*/*") (by decide) (by decide))) :=
  (arrives_iff keepsMessage_id (.swap _ _ _) ⟨by decide, by decide⟩).mpr ⟨by decide, by decide⟩

/-- A request with one header and a content. -/
def accepted : Message := greeting (CText.text "*/*") (by decide) (by decide)

theorem valid_ok : (Start.response .s200 .v1_1).Valid := ⟨by decide, by decide⟩

theorem distinct_nil : (([] : List Field).map Field.name).Nodup := List.nodup_nil

theorem other_nil : ∀ f ∈ ([] : List Field),
    f.name ≠ CText.text "content-length" ∧ f.name ≠ CText.text "content-type" :=
  List.forall_mem_nil _

theorem oneLine_plain : OneLine (CText.text "text/plain") := by decide

theorem trimmed_plain : ∀ c ∈ (CText.text "text/plain").head?, isspace c = false := by decide

theorem short_yo : (CText.text "yo").length < 2 ^ 64 := by decide

/-- `200 OK` with a content. -/
def answer : Message where
  start := .response .s200 .v1_1
  headers := []
  content := CText.text "yo"
  contentType := CText.text "text/plain"
  valid := valid_ok
  distinct := distinct_nil
  other := other_nil
  oneLine := oneLine_plain
  trimmed := trimmed_plain
  short := short_yo

theorem deliverable_accepted : Deliverable accepted (contentFirst accepted) :=
  ⟨.swap _ _ _, ⟨by decide, by decide⟩, by decide, by decide⟩

theorem deliverable_answer : Deliverable answer (contentFirst answer) :=
  ⟨.swap _ _ _, ⟨by decide, by decide⟩, by decide, by decide⟩

end Libuo.HttpDelivery
