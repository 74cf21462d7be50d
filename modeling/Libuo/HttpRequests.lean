import Libuo.HttpStartLine
import Libuo.HttpServer

/-!
# Requests in part

What a server's request is after some of the bytes have been received, computed from
these bytes alone, and what one more chunk makes of it.
-/

namespace Libuo.HttpRequests
open CStrings CText OrderedMap HttpMsg HttpHeaders HttpStartLine HttpServer

/-- A request with a content length and a body of that length. Between the header lines that are
not the content length, names may occur more than once. -/
structure Request where
  method : List UInt8
  uri : List UInt8
  version : List UInt8
  before : List Line
  lengthLine : Line
  after : List Line
  digits : List UInt8
  blanks : List UInt8
  body : List UInt8
  oneLine : OneLine method ∧ OneLine uri ∧ OneLine version
  noSpace : chr ' ' ∉ method ∧ chr ' ' ∉ version
  lengthKey : lengthLine.key = text "content-length"
  otherKeys : ∀ l ∈ before ++ after, l.key ≠ text "content-length"
  lengthValue : lengthLine.value = digits ++ blanks
  digits_ne_nil : digits ≠ []
  isDigits : ∀ c ∈ digits, isdigit c = true
  isBlanks : ∀ c ∈ blanks, isspace c = true
  decimal_digits : decimal digits = body.length
  short : body.length < 2 ^ 64

namespace Request

variable (r : Request)

/-- The request line without its end. -/
def line : List UInt8 := r.method ++ chr ' ' :: (r.uri ++ chr ' ' :: r.version)

def lines : List Line := r.before ++ r.lengthLine :: r.after

/-- The request up to its body. -/
def head : List UInt8 := r.line ++ (block r.lines ++ blankLine)

def bytes : List UInt8 := r.head ++ r.body

/-- The request line is parsed. -/
def started (ver : Ver) (received : List UInt8) : Msg :=
  { create .request received with
    method := (methodOf r.method).getD .invalid
    ver
    methodSpUri := some (r.method ++ chr ' ' :: r.uri)
    uri := some r.uri
    versionCrlf := some (r.version ++ crlf)
    parsingOffset := r.line.length + 2
    startLine := true }

/-- The headers are parsed, too. -/
def headed (ver : Ver) (received : List UInt8) : Msg :=
  { r.started ver received with
    parsingOffset := r.head.length
    headers := store [] (readLines r.lines)
    hasHeaders := true }

/-- The request before the end of its headers. -/
def early (ver : Ver) (received : List UInt8) : Msg :=
  if received.length < r.line.length + 2 then create .request received
  else r.started ver received

end Request

variable {r : Request} {ver : Ver} {p c q : List UInt8} {reqHandlers : ℕ}

theorem oneLine_line (r : Request) : OneLine r.line := by
  obtain ⟨hmethod, huri, hversion⟩ := r.oneLine
  have hspace : OneLine [chr ' '] := by decide
  exact hmethod.append (hspace.append (huri.append (hspace.append hversion)))

theorem length_head (r : Request) :
    r.head.length = r.line.length + ((block r.lines).length + 4) := by
  rw [Request.head, List.length_append, List.length_append]
  rfl

theorem lines_eq_cons (r : Request) : ∃ l lines, r.lines = l :: lines :=
  List.exists_cons_of_ne_nil (by simp [Request.lines])

/-- The request line and its end, and what is behind the line. -/
theorem bytes_eq (r : Request) :
    r.bytes = r.line ++ (crlf ++ r.bytes.drop (r.line.length + 2)) ∧
      r.bytes.drop r.line.length = block r.lines ++ (blankLine ++ r.body) := by
  have hdrop : r.bytes.drop r.line.length = block r.lines ++ (blankLine ++ r.body) := by
    rw [Request.bytes, Request.head, List.append_assoc, List.drop_left, List.append_assoc]
  obtain ⟨l, lines, hlines⟩ := lines_eq_cons r
  refine ⟨?_, hdrop⟩
  rw [← List.drop_drop, hdrop, hlines, Request.bytes, Request.head, hlines, block_cons]
  simp [crlf, text]

theorem isPrefix_line (hp : p <+: r.bytes) (hlen : p.length < r.line.length + 2) :
    p <+: r.line ++ crlf := by
  have hline : r.line ++ crlf <+: r.bytes := by
    rw [(bytes_eq r).1, ← List.append_assoc]
    exact List.prefix_append _ _
  refine List.prefix_of_prefix_length_le hp hline ?_
  rw [List.length_append]
  exact hlen.le

theorem received_eq (hp : p <+: r.bytes) (hlen : r.line.length + 2 ≤ p.length) :
    p = r.line ++ (crlf ++ p.drop (r.line.length + 2)) := by
  have hline : r.line ++ crlf <+: p := by
    refine List.prefix_of_prefix_length_le ?_ hp ?_
    · rw [(bytes_eq r).1, ← List.append_assoc]
      exact List.prefix_append _ _
    · rw [List.length_append]
      exact hlen
  obtain ⟨rest, hrest⟩ := hline
  have hdrop : p.drop (r.line.length + 2) = rest := by
    rw [← hrest]
    exact List.drop_left' (by rw [List.length_append]; rfl)
  rw [hdrop, ← List.append_assoc, hrest]

theorem parseStartLine_short {msg : Msg} (hp : msg.buf <+: r.bytes) (hne : msg.buf ≠ [])
    (hlen : msg.buf.length < r.line.length + 2) : parseStartLine msg = .ok (msg, false) :=
  parseStartLine_cut (oneLine_line r) hne (isPrefix_line hp hlen) hlen

theorem parseStartLine_eq {msg : Msg} (htype : msg.type = .request)
    (hbuf : msg.buf = r.line ++ (crlf ++ q)) :
    parseStartLine msg = .ok (match verOf (lastChar r.version) with
      | none => invalid { msg with method := (methodOf r.method).getD msg.method }
      | some ver => ({ msg with
          method := (methodOf r.method).getD msg.method
          ver
          methodSpUri := some (r.method ++ chr ' ' :: r.uri)
          uri := some r.uri
          versionCrlf := some (r.version ++ crlf)
          parsingOffset := r.line.length + 2
          startLine := true }, true)) := by
  obtain ⟨hmethod, huri, hversion⟩ := r.oneLine
  have hline : parseStartLine msg =
      .ok (parseRequestLine msg (r.line ++ crlf) r.line.length) := by
    rw [parseStartLine_line (oneLine_line r) hbuf, htype]
  rw [hline]
  exact congrArg Except.ok
    (parseRequestLine_eq r.noSpace.1 hmethod huri r.noSpace.2 hversion r.line.length)

/-- What a receive makes of a request whose line has not been received as a whole. -/
theorem afterRecv_short (hp : p <+: r.bytes) (hne : p ≠ [])
    (hlen : p.length < r.line.length + 2) :
    afterRecv reqHandlers (create .request p) = .ok (create .request p, [.nextRecv]) := by
  have hstart : ¬ (create .request p).startLine = true := Bool.false_ne_true
  rw [afterRecv, if_neg hstart, parseStartLine_short (r := r) hp hne hlen]
  rfl

/-- A receive that gives a part of the headers at least goes on with the headers. -/
theorem receive_early (hver : verOf (lastChar r.version) = some ver) (hp : p ++ c <+: r.bytes)
    (hlen : r.line.length + 2 ≤ (p ++ c).length) :
    receive reqHandlers (r.early ver p) c =
      afterRecvHeaders reqHandlers (r.started ver (p ++ c)) := by
  rw [receive, Request.early]
  split
  · have htype : (create .request (p ++ c)).type = .request := rfl
    have hparse := parseStartLine_eq htype (received_eq hp hlen)
    have hstart : ¬ (create .request (p ++ c)).startLine = true := Bool.false_ne_true
    rw [hver] at hparse
    change afterRecv reqHandlers (create .request (p ++ c)) = _
    rw [afterRecv, if_neg hstart, hparse]
    rfl
  · rfl

theorem drop_received (hp : p <+: r.bytes) (hlen : r.line.length ≤ p.length) :
    p.drop r.line.length <+: block r.lines ++ (blankLine ++ r.body) := by
  obtain ⟨rest, hrest⟩ := hp
  rw [← (bytes_eq r).2, ← hrest, List.drop_append_of_le_length hlen]
  exact List.prefix_append _ _

theorem parseHeaders_short (hp : p <+: r.bytes) (hline : r.line.length + 2 ≤ p.length)
    (hlen : p.length < r.head.length) :
    parseHeaders (r.started ver p) = .ok (r.started ver p, false) := by
  have hhead := length_head r
  have hdrop : (p.drop r.line.length).length < (block r.lines).length + 4 := by
    rw [List.length_drop]
    omega
  have hcut : p.drop r.line.length <+: block r.lines ++ blankLine := by
    refine List.prefix_of_prefix_length_le (drop_received hp (by omega)) ?_ ?_
    · rw [← List.append_assoc]
      exact List.prefix_append _ _
    · rw [List.length_append]
      exact hdrop.le
  exact parseHeaders_cut (Nat.le_add_left 2 _) rfl hcut hdrop

theorem parseHeaders_eq (hdrop : p.drop r.line.length = block r.lines ++ (blankLine ++ q)) :
    parseHeaders (r.started ver p) = .ok (r.headed ver p, true) := by
  obtain ⟨l, lines, hlines⟩ := lines_eq_cons r
  have hdrop' : p.drop (r.line.length + 2 - 2) = block (l :: lines) ++ (blankLine ++ q) :=
    hlines ▸ hdrop
  have hparse : parseHeaders (r.started ver p) = _ :=
    parseHeaders_lines (Nat.le_add_left 2 _) hdrop'
  rw [hparse, ← hlines, Request.headed, length_head]
  rfl

theorem parseHeaders_received (hp : p <+: r.bytes) (hlen : r.head.length ≤ p.length) :
    parseHeaders (r.started ver p) = .ok (r.headed ver p, true) := by
  have hhead := length_head r
  have hblock : block r.lines ++ blankLine <+: p.drop r.line.length := by
    refine List.prefix_of_prefix_length_le (List.prefix_append _ r.body) ?_ ?_
    · rw [List.append_assoc]
      exact drop_received hp (by omega)
    · rw [List.length_append, List.length_drop]
      change (block r.lines).length + 4 ≤ _
      omega
  obtain ⟨rest, hrest⟩ := hblock
  exact parseHeaders_eq (hrest.symm.trans (List.append_assoc _ _ _))

/-- The content length is found unless it has been taken for the value of another header. -/
theorem getHeader_headed (r : Request) (ver : Ver) (received : List UInt8) :
    getHeader (r.headed ver received) (text "content-length") =
      if swallowed r.before then none else some (r.digits ++ r.blanks) := by
  have hv : r.lengthLine.value ≠ [] := by simp [r.lengthValue, r.digits_ne_nil]
  have hother : ∀ l ∈ r.before ++ r.after, l.key ≠ r.lengthLine.key := fun l hl =>
    r.lengthKey ▸ r.otherKeys l hl
  have hget := get_readLines hv hother
  rw [r.lengthKey, r.lengthValue] at hget
  change (OrderedMap.get strings (store [] (readLines (r.before ++ r.lengthLine :: r.after)))
    (text "content-length")).join = _
  rw [hget]
  split <;> rfl

theorem strtoull_length (r : Request) : strtoull (r.digits ++ r.blanks) = some r.body.length := by
  rw [strtoull_digits r.digits_ne_nil r.isDigits _ (r.decimal_digits ▸ r.short), r.decimal_digits]
  intro c hc
  have hblank := r.isBlanks c (List.mem_of_mem_head? hc)
  by_contra hdigit
  rw [not_isspace_of_isdigit (by simpa using hdigit)] at hblank
  exact Bool.false_ne_true hblank

/-- The request with its body. -/
def Request.bodied (r : Request) (ver : Ver) : Msg :=
  { r.headed ver r.bytes with
    body := some r.body
    buf := r.bytes.set (r.head.length + r.body.length) 0
    bodyLen := r.body.length
    parsingOffset := 0
    hasBody := true }

theorem parseBody_part (hs : swallowed r.before = false) (hhead : r.head.length ≤ p.length)
    (hlen : p.length < r.bytes.length) :
    parseBody (r.headed ver p) = (r.headed ver p, false) := by
  have hbytes : r.bytes.length = r.head.length + r.body.length := List.length_append
  have hget := getHeader_headed r ver p
  rw [hs, if_neg Bool.false_ne_true] at hget
  have hgt : r.body.length > p.length - r.head.length := by omega
  rw [parseBody, hget]
  simp only [strtoull_length]
  exact if_pos hgt

/-- A request with its body, and other bytes behind it. -/
def Request.bodiedBefore (r : Request) (ver : Ver) (rest : List UInt8) : Msg :=
  { r.headed ver (r.bytes ++ rest) with
    body := some r.body
    buf := (r.bytes ++ rest).set (r.head.length + r.body.length) 0
    bodyLen := r.body.length
    parsingOffset := 0
    hasBody := true }

theorem parseBody_before (hs : swallowed r.before = false) (rest : List UInt8) :
    parseBody (r.headed ver (r.bytes ++ rest)) = (r.bodiedBefore ver rest, true) := by
  have hget := getHeader_headed r ver (r.bytes ++ rest)
  rw [hs, if_neg Bool.false_ne_true] at hget
  have hle : ¬ r.body.length > (r.bytes ++ rest).length - r.head.length := by
    simp only [Request.bytes, List.length_append]
    omega
  have hbody : ((r.headed ver (r.bytes ++ rest)).buf.drop
      (r.headed ver (r.bytes ++ rest)).parsingOffset).take r.body.length = r.body := by
    change ((r.bytes ++ rest).drop r.head.length).take r.body.length = r.body
    rw [Request.bytes, List.append_assoc, List.drop_left, List.take_left]
  rw [parseBody, hget]
  simp only [strtoull_length]
  refine (if_neg hle).trans ?_
  rw [hbody]
  rfl

theorem parseBody_whole (hs : swallowed r.before = false) :
    parseBody (r.headed ver r.bytes) = (r.bodied ver, true) := by
  have h : _ = (r.bodiedBefore ver [], true) := parseBody_before hs []
  rwa [Request.bodiedBefore, List.append_nil] at h

/-- Without a content length, the method decides. -/
theorem parseBody_swallowed (hs : swallowed r.before = true) :
    parseBody (r.headed ver p) = if needsNoBody (r.headed ver p) then
      ({ r.headed ver p with parsingOffset := 0, hasBody := true }, true)
    else invalid (r.headed ver p) := by
  have hget := getHeader_headed r ver p
  rw [hs, if_pos rfl] at hget
  rw [parseBody, hget]

end Libuo.HttpRequests
