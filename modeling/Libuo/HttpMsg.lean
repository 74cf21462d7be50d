import Libuo.CText
import Libuo.OrderedMap

/-!
# HTTP messages

Messages are composed with the functions for sending and written to a buffer, or parsed
from the bytes that have been received. A header table is the list of its entries. The
role of a message, which these functions only assert, is not part of it, and neither are
the allocations that are freed with it.

Types and functions have the names of the source without the prefixes `uo_http_`,
`uo_http_msg_`, `uo_http_req_` and `uo_http_res_`.
-/

namespace Libuo.HttpMsg
open CStrings CText OrderedMap

inductive Method where
  | invalid | get | head | put | delete | options | trace | post | connect
  deriving DecidableEq

inductive Ver where
  | invalid | v1_0 | v1_1 | v2
  deriving DecidableEq

inductive Status where
  | invalid | s100 | s101 | s200 | s201 | s202 | s203 | s204 | s205 | s206 | s300 | s301 | s302
  | s303 | s304 | s305 | s307 | s400 | s401 | s402 | s403 | s404 | s405 | s406 | s407 | s408
  | s409 | s410 | s411 | s412 | s413 | s414 | s415 | s416 | s417 | s500 | s501 | s502 | s503
  | s504 | s505
  deriving DecidableEq

inductive MsgType where
  | request | response
  deriving DecidableEq

/-- `uo_http_msg`. The strings and the body are given by their bytes, `NULL` by `none`; `buf` has
the bytes before the position of `*http_msg->buf`. -/
structure Msg where
  type : MsgType
  buf : List UInt8
  headers : List (List UInt8 × Option (List UInt8))
  body : Option (List UInt8)
  bodyLen : ℕ
  methodSpUri : Option (List UInt8)
  uri : Option (List UInt8)
  versionCrlf : Option (List UInt8)
  method : Method
  version : Option (List UInt8)
  statusSpReason : Option (List UInt8)
  status : Status
  ver : Ver
  parsingOffset : ℕ
  isInvalid : Bool
  startLine : Bool
  hasHeaders : Bool
  hasBody : Bool
  deriving DecidableEq

/-- An access outside of an array, or an endless loop. -/
inductive Fault where
  | fault
  deriving DecidableEq

/-- `strcmp` as an equality of keys. -/
def strings : KeyEq (List UInt8) where
  equals := (· == ·)
  refl _ := beq_self_eq_true _
  symm h := by simpa using (beq_iff_eq.mp h).symm
  trans h h' := by simpa using (beq_iff_eq.mp h).trans (beq_iff_eq.mp h')

def crlf : List UInt8 := text "\r\n"

def create (type : MsgType) (buf : List UInt8) : Msg :=
  ⟨type, buf, [], none, 0, none, none, none, .invalid, none, none, .invalid, .invalid, 0, false,
    false, false, false⟩

def setHeader (msg : Msg) (name value : List UInt8) : Msg :=
  { msg with headers := OrderedMap.set strings msg.headers name (some value) }

def setContent (msg : Msg) (content contentType : List UInt8) : Msg :=
  if content.length = 0 then
    { setHeader msg (text "content-length") (text "0") with hasBody := true }
  else
    let msg := { msg with bodyLen := content.length, body := some content }
    let msg := setHeader msg (text "content-length") (printNat content.length)
    let msg := setHeader msg (text "content-type") contentType
    { msg with hasBody := true }

/-- `uo_http_msg_set_content_ref`, of the first bytes of a counted block. -/
def setContentRef (msg : Msg) (block contentType : List UInt8) (contentLen : ℕ) : Msg :=
  if contentLen = 0 then
    { setHeader msg (text "content-length") (text "0") with hasBody := true }
  else
    let msg := { msg with bodyLen := contentLen, body := some block }
    let msg := setHeader msg (text "content-length") (printNat contentLen)
    let msg := setHeader msg (text "content-type") contentType
    { msg with hasBody := true }

/-- The first `switch` of `uo_http_req_set_request_line`. -/
def methodStr : Method → Option (List UInt8)
  | .get => some (text "GET")
  | .head => some (text "HEAD")
  | .put => some (text "PUT")
  | .delete => some (text "DELETE")
  | .options => some (text "OPTIONS")
  | .trace => some (text "TRACE")
  | .post => some (text "POST")
  | .connect => some (text "CONNECT")
  | .invalid => none

/-- The `switch` over the version when a start line is set. -/
def versionStr : Ver → Option (List UInt8)
  | .v1_0 => some (text "HTTP/1.0")
  | .v1_1 => some (text "HTTP/1.1")
  | .v2 => some (text "HTTP/2")
  | .invalid => none

/-- The first `switch` of `uo_http_res_set_status_line`, with the texts of the status codes. -/
def statusStr : Status → Option (List UInt8)
  | .s100 => some (text "100 Continue")
  | .s101 => some (text "101 Switching Protocols")
  | .s200 => some (text "200 OK")
  | .s201 => some (text "201 Created")
  | .s202 => some (text "202 Accepted")
  | .s203 => some (text "203 Non-Authoritative Information")
  | .s204 => some (text "204 No Content")
  | .s205 => some (text "205 Reset Content")
  | .s206 => some (text "206 Partial Content")
  | .s300 => some (text "300 Multiple Choices")
  | .s301 => some (text "301 Moved Permanently")
  | .s302 => some (text "302 Found")
  | .s303 => some (text "303 See Other")
  | .s304 => some (text "304 Not Modified")
  | .s305 => some (text "305 Use Proxy")
  | .s307 => some (text "307 Temporary Redirect")
  | .s400 => some (text "400 Bad Request")
  | .s401 => some (text "401 Unauthorized")
  | .s402 => some (text "402 Payment Required")
  | .s403 => some (text "403 Forbidden")
  | .s404 => some (text "404 Not Found")
  | .s405 => some (text "405 Method Not Allowed")
  | .s406 => some (text "406 Not Acceptable")
  | .s407 => some (text "407 Proxy Authentication Required")
  | .s408 => some (text "408 Request Time-out")
  | .s409 => some (text "409 Conflict")
  | .s410 => some (text "410 Gone")
  | .s411 => some (text "411 Length Required")
  | .s412 => some (text "412 Precondition Failed")
  | .s413 => some (text "413 Request Entity Too Large")
  | .s414 => some (text "414 Request-URI Too Large")
  | .s415 => some (text "415 Unsupported Media Type")
  | .s416 => some (text "416 Requested range not satisfied")
  | .s417 => some (text "417 Expectation Failed")
  | .s500 => some (text "500 Internal Server Error")
  | .s501 => some (text "501 Not Implemented")
  | .s502 => some (text "502 Bad Gateway")
  | .s503 => some (text "503 Service Unavailable")
  | .s504 => some (text "504 Gateway Time-out")
  | .s505 => some (text "505 HTTP Version not supported")
  | .invalid => none

def setRequestLine (msg : Msg) (method : Method) (uri : List UInt8) (version : Ver) :
    Msg × Bool :=
  match methodStr method, versionStr version with
  | some methodStr, some versionStr =>
    if uri = [] then (msg, false)
    else ({ msg with
      methodSpUri := some (methodStr ++ text " " ++ uri)
      uri := some uri
      versionCrlf := some (versionStr ++ crlf)
      ver := version
      method
      startLine := true }, true)
  | _, _ => (msg, false)

def setStatusLine (msg : Msg) (status : Status) (version : Ver) : Msg × Bool :=
  match statusStr status, versionStr version with
  | some statusStr, some versionStr =>
    ({ msg with
      version := some versionStr
      statusSpReason := some statusStr
      ver := version
      status
      startLine := true }, true)
  | _, _ => (msg, false)

/-- A `%s` of `printf`. -/
def printStr (s : Option (List UInt8)) : List UInt8 := s.getD (text "(null)")

/-- `uo_buf_printf_append`. The length of the text has to be an `int`. -/
def printfAppend (dst s : List UInt8) : Except Fault (List UInt8) :=
  if s.length < 2 ^ 31 then .ok (dst ++ s) else .error .fault

def writeHeader (dst : List UInt8) (header : List UInt8 × Option (List UInt8)) :
    Except Fault (List UInt8) :=
  printfAppend dst (header.1 ++ text ": " ++ printStr header.2 ++ crlf)

def writeStartLine (msg : Msg) (dst : List UInt8) : Except Fault (List UInt8) :=
  match msg.type with
  | .request => printfAppend dst (printStr msg.methodSpUri ++ text " " ++ printStr msg.versionCrlf)
  | .response =>
    printfAppend dst (printStr msg.version ++ text " " ++ printStr msg.statusSpReason ++ crlf)

/-- `uo_http_msg_write_to_buf`, behind the bytes that the buffer has already. -/
def writeToBuf (msg : Msg) (dst : List UInt8) : Except Fault (List UInt8) := do
  let dst ← writeStartLine msg dst
  let dst ← msg.headers.foldlM writeHeader dst
  pure (dst ++ crlf ++ if msg.bodyLen = 0 then [] else (msg.body.getD []).take msg.bodyLen)

/-- The `switch` over the length of the method in `uo_http_msg_parse_start_line`. -/
def methodOf (s : List UInt8) : Option Method :=
  if s = text "GET" then some .get
  else if s = text "PUT" then some .put
  else if s = text "POST" then some .post
  else if s = text "HEAD" then some .head
  else if s = text "TRACE" then some .trace
  else if s = text "DELETE" then some .delete
  else if s = text "OPTIONS" then some .options
  else if s = text "CONNECT" then some .connect
  else none

def verOf (c : UInt8) : Option Ver :=
  if c = chr '2' then some .v2
  else if c = chr '1' then some .v1_1
  else if c = chr '0' then some .v1_0
  else none

def statusOf : ℤ → Option Status
  | 100 => some .s100
  | 101 => some .s101
  | 200 => some .s200
  | 201 => some .s201
  | 202 => some .s202
  | 203 => some .s203
  | 204 => some .s204
  | 205 => some .s205
  | 206 => some .s206
  | 300 => some .s300
  | 301 => some .s301
  | 302 => some .s302
  | 303 => some .s303
  | 304 => some .s304
  | 305 => some .s305
  | 307 => some .s307
  | 400 => some .s400
  | 401 => some .s401
  | 402 => some .s402
  | 403 => some .s403
  | 404 => some .s404
  | 405 => some .s405
  | 406 => some .s406
  | 407 => some .s407
  | 408 => some .s408
  | 409 => some .s409
  | 410 => some .s410
  | 411 => some .s411
  | 412 => some .s412
  | 413 => some .s413
  | 414 => some .s414
  | 415 => some .s415
  | 416 => some .s416
  | 417 => some .s417
  | 500 => some .s500
  | 501 => some .s501
  | 502 => some .s502
  | 503 => some .s503
  | 504 => some .s504
  | 505 => some .s505
  | _ => none

/-- `return (http_msg->flags.is_invalid = true, false)`. -/
def invalid (msg : Msg) : Msg × Bool := ({ msg with isInvalid := true }, false)

/-- The part of `uo_http_msg_parse_start_line` for requests; the line ends behind `cr`. -/
def parseRequestLine (msg : Msg) (line : List UInt8) (cr : ℕ) : Msg × Bool :=
  match memchr line (chr ' ') line.length with
  | none => invalid msg
  | some sp1 =>
    let msg := { msg with method := (methodOf (line.take sp1)).getD msg.method }
    let rest := cstr (line.drop (sp1 + 1))
    match strrchr rest (chr ' ') with
    | none => invalid msg
    | some sp2 =>
      let version := rest.drop (sp2 + 1)
      match strchr version (chr '\r') with
      | none => invalid msg
      | some n =>
        -- the character before the version is the NUL that has replaced the space
        match verOf ((0 :: version).getD n 0) with
        | none => invalid msg
        | some ver =>
          ({ msg with
            ver
            methodSpUri := some (cstr (line.take (sp1 + 1 + sp2)))
            uri := some (rest.take sp2)
            versionCrlf := some version
            parsingOffset := cr + 2
            startLine := true }, true)

/-- The part of `uo_http_msg_parse_start_line` for responses. -/
def parseStatusLine (msg : Msg) (line : List UInt8) (cr : ℕ) :
    Except Fault (Msg × Bool) :=
  let line := cstr (line.take (line.length - 2))
  match strchr line (chr ' ') with
  | none => .ok (invalid msg)
  | some 0 => .error .fault
  | some (n + 1) =>
    match verOf (line.getD n 0) with
    | none => .ok (invalid msg)
    | some ver =>
      let msg := { msg with ver }
      match (scanInt (line.drop (n + 2))).bind statusOf with
      | none => .ok (invalid msg)
      | some status =>
        .ok ({ msg with
          status
          version := some line
          statusSpReason := some (line.drop (n + 2))
          parsingOffset := cr + 2
          startLine := true }, true)

/-- `uo_http_msg_parse_start_line`. Without a byte in the buffer, the length wraps around. -/
def parseStartLine (msg : Msg) : Except Fault (Msg × Bool) :=
  if msg.buf = [] then .error .fault
  else match memchr msg.buf (chr '\r') (msg.buf.length - 1) with
  | none => .ok (msg, false)
  | some cr =>
    if msg.buf[cr + 1]? = some (chr '\n') then
      match msg.type with
      | .request => .ok (parseRequestLine msg (msg.buf.take (cr + 2)) cr)
      | .response => parseStatusLine msg (msg.buf.take (cr + 2)) cr
    else .ok (msg, false)

/-- The `while` loop of `uo_http_msg_parse_headers`, from the result of `strtok_r` for a name.
A name that ends with the text is followed beyond the text. Every round takes a name. -/
def parseHeaderLoop : ℕ → Option (List UInt8 × Option (List UInt8)) →
    List (List UInt8 × Option (List UInt8)) →
    Except Fault (List (List UInt8 × Option (List UInt8)))
  | _, none, headers => .ok headers
  | 0, some _, _ => .error .fault
  | _ + 1, some (_, none), _ => .error .fault
  | fuel + 1, some (name, some p), headers =>
    let name := name.map tolower
    match strtok (text "\r") (p.dropWhile isspace) with
    | none => .ok (OrderedMap.set strings headers name none)
    | some (value, saveptr) =>
      parseHeaderLoop fuel (strtok (text "\n:") (saveptr.getD []))
        (OrderedMap.set strings headers name (some value))

def parseHeaders (msg : Msg) : Except Fault (Msg × Bool) :=
  if msg.parsingOffset < 2 then .error .fault
  else match strstr (cstr (msg.buf.drop (msg.parsingOffset - 2))) (crlf ++ crlf) with
  | none => .ok (msg, false)
  | some i =>
    let headersStart := msg.parsingOffset
    let headersEnd := msg.parsingOffset - 2 + i
    let msg := { msg with parsingOffset := headersEnd + 4 }
    if headersStart > headersEnd then .ok ({ msg with hasHeaders := true }, true)
    else
      let p := (msg.buf.drop headersStart).take (headersEnd - headersStart)
      (parseHeaderLoop p.length (strtok (text ":") p) msg.headers).map fun headers =>
        ({ msg with headers, hasHeaders := true }, true)

def getHeader (msg : Msg) (name : List UInt8) : Option (List UInt8) :=
  (OrderedMap.get strings msg.headers name).join

def needsNoBody (msg : Msg) : Bool :=
  match msg.type with
  | .request =>
    match msg.method with
    | .get | .head | .delete | .connect | .trace => true
    | _ => false
  | .response =>
    match msg.status with
    | .s100 | .s101 | .s204 | .s304 => true
    | _ => false

/-- `uo_http_msg_parse_body`. A NUL is stored behind the body, where there is no byte of the
buffer's content or the first of those that follow. -/
def parseBody (msg : Msg) : Msg × Bool :=
  let len := msg.buf.length - msg.parsingOffset
  match getHeader msg (text "content-length") with
  | some contentLength =>
    match strtoull contentLength with
    | none => invalid msg
    | some contentLen =>
      if contentLen > len then (msg, false)
      else ({ msg with
        body := some ((msg.buf.drop msg.parsingOffset).take contentLen)
        buf := msg.buf.set (msg.parsingOffset + contentLen) 0
        bodyLen := contentLen
        parsingOffset := 0
        hasBody := true }, true)
  | none =>
    if needsNoBody msg then ({ msg with parsingOffset := 0, hasBody := true }, true)
    else invalid msg

end Libuo.HttpMsg
