import Libuo.HttpMsg
import Mathlib.Data.List.Induction

/-!
# The content of a message that is sent

The content can be set by copying it or by a reference, any number of times and between
the calls for other headers. The header for its length and the body are kept in different
places, and a call without content leaves the body of the calls before it.
-/

namespace Libuo.HttpContent
open CText OrderedMap HttpMsg

/-- The calls between the creation of a message and its sending. A block that is referenced has
the bytes of the content, and keeps them until the message is written. -/
inductive Call where
  | header (name value : List UInt8) (other : name ≠ text "content-length")
  | content (bytes contentType : List UInt8)
  | contentRef (block contentType : List UInt8) (contentLen : ℕ) (fits : contentLen ≤ block.length)
  | requestLine (method : Method) (uri : List UInt8) (version : Ver)
  | statusLine (status : Status) (version : Ver)

def Call.apply (msg : Msg) : Call → Msg
  | .header name value _ => setHeader msg name value
  | .content bytes contentType => setContent msg bytes contentType
  | .contentRef block contentType contentLen _ => setContentRef msg block contentType contentLen
  | .requestLine method uri version => (setRequestLine msg method uri version).1
  | .statusLine status version => (setStatusLine msg status version).1

/-- The message after the calls. -/
def send (type : MsgType) (buf : List UInt8) (calls : List Call) : Msg :=
  calls.foldl Call.apply (create type buf)

/-- The content that a call gives. -/
def Call.given : Call → Option (List UInt8)
  | .content bytes _ => some bytes
  | .contentRef block _ contentLen _ => some (block.take contentLen)
  | .header .. | .requestLine .. | .statusLine .. => none

def contents (calls : List Call) : List (List UInt8) := calls.filterMap Call.given

/-- The bytes that `uo_http_msg_write_to_buf` appends: a start line with its end, headers with
their values, and the body behind the blank line. -/
structure Parts where
  startLine : List UInt8
  headers : List (List UInt8 × List UInt8)
  body : List UInt8

namespace Parts

def line (header : List UInt8 × List UInt8) : List UInt8 :=
  header.1 ++ text ": " ++ header.2 ++ crlf

def bytes (p : Parts) : List UInt8 := p.startLine ++ p.headers.flatMap line ++ crlf ++ p.body

/-- The values of the headers for the length of the content. -/
def contentLengths (p : Parts) : List (List UInt8) :=
  (p.headers.filter fun header => header.1 == text "content-length").map Prod.snd

end Parts

def startLine (msg : Msg) : List UInt8 :=
  match msg.type with
  | .request => printStr msg.methodSpUri ++ text " " ++ printStr msg.versionCrlf
  | .response => printStr msg.version ++ text " " ++ printStr msg.statusSpReason ++ crlf

def parts (msg : Msg) : Parts where
  startLine := startLine msg
  headers := msg.headers.map fun header => (header.1, printStr header.2)
  body := if msg.bodyLen = 0 then [] else (msg.body.getD []).take msg.bodyLen

variable {type : MsgType} {buf dst out content : List UInt8} {msg : Msg} {calls : List Call}

theorem of_printfAppend {s : List UInt8} (h : printfAppend dst s = .ok out) : out = dst ++ s := by
  rw [printfAppend] at h
  split at h
  · exact (Except.ok.inj h).symm
  · cases h

theorem of_writeStartLine (h : writeStartLine msg dst = .ok out) : out = dst ++ startLine msg := by
  rw [writeStartLine] at h
  rw [startLine]
  cases hm : msg.type <;>
  · rw [hm] at h
    exact of_printfAppend h

theorem of_writeHeaders {headers : List (List UInt8 × Option (List UInt8))}
    (h : headers.foldlM writeHeader dst = .ok out) :
    out = dst ++ (headers.map fun header => (header.1, printStr header.2)).flatMap Parts.line := by
  induction headers generalizing dst with
  | nil => simpa using (Except.ok.inj h).symm
  | cons header headers ih =>
    rw [List.foldlM_cons] at h
    cases hw : writeHeader dst header with
    | error e =>
      rw [hw] at h
      cases h
    | ok dst' =>
      rw [hw] at h
      rw [ih h, of_printfAppend hw, List.map_cons, List.flatMap_cons, List.append_assoc]
      rfl

/-- What is written are the parts of the message. -/
theorem writeToBuf_parts (h : writeToBuf msg dst = .ok out) : out = dst ++ (parts msg).bytes := by
  rw [writeToBuf] at h
  cases hs : writeStartLine msg dst with
  | error e =>
    rw [hs] at h
    cases h
  | ok dst₁ =>
    rw [hs] at h
    change (msg.headers.foldlM writeHeader dst₁ >>= fun dst =>
      pure (dst ++ crlf ++ (parts msg).body)) = .ok out at h
    cases hh : msg.headers.foldlM writeHeader dst₁ with
    | error e =>
      rw [hh] at h
      cases h
    | ok dst₂ =>
      rw [hh] at h
      rw [← Except.ok.inj h, of_writeHeaders hh, of_writeStartLine hs, Parts.bytes]
      simp only [parts, List.append_assoc]

/-- The length of the content that was given last, and the last content that is not empty. -/
structure Composed (given : List (List UInt8)) (msg : Msg) : Prop where
  distinct : Distinct strings msg.headers
  length : OrderedMap.get strings msg.headers (text "content-length") =
    given.getLast?.map fun content => some (printNat content.length)
  body : (parts msg).body = ((given.filter (· ≠ [])).getLast?).getD []

theorem composed_create : Composed [] (create type buf) := ⟨.nil, rfl, rfl⟩

/-- A start line has nothing to do with the content. -/
theorem Composed.of_eq {given : List (List UInt8)} {msg' : Msg} (h : Composed given msg)
    (hheaders : msg'.headers = msg.headers) (hbody : msg'.body = msg.body)
    (hlen : msg'.bodyLen = msg.bodyLen) : Composed given msg' where
  distinct := hheaders ▸ h.distinct
  length := hheaders ▸ h.length
  body := by
    rw [← h.body, parts, parts, hbody, hlen]

theorem Composed.setHeader {given : List (List UInt8)} (h : Composed given msg)
    {name : List UInt8} (hname : name ≠ text "content-length") (value : List UInt8) :
    Composed given (setHeader msg name value) where
  distinct := h.distinct.set _ _
  length := by
    rw [HttpMsg.setHeader, get_set, if_neg (by simpa [strings] using hname)]
    exact h.length
  body := h.body

/-- A copied content is one whose whole block is referenced. -/
theorem setContent_eq (msg : Msg) (content contentType : List UInt8) :
    setContent msg content contentType = setContentRef msg content contentType content.length := rfl

theorem Composed.setContentRef {given : List (List UInt8)} (h : Composed given msg)
    {block : List UInt8} {contentLen : ℕ} (hfits : contentLen ≤ block.length)
    (contentType : List UInt8) :
    Composed (given ++ [block.take contentLen])
      (setContentRef msg block contentType contentLen) := by
  have hlen : (block.take contentLen).length = contentLen := List.length_take_of_le hfits
  have htype : strings.equals (text "content-type") (text "content-length") = false := by decide
  by_cases hzero : contentLen = 0
  · subst hzero
    refine ⟨h.distinct.set _ _, ?_, ?_⟩
    · rw [List.getLast?_concat, HttpMsg.setContentRef, if_pos rfl]
      refine (get_set _ _ _ _).trans ((if_pos (strings.refl _)).trans ?_)
      rw [List.take_zero]
      decide
    · -- the body of the calls before stays
      rw [List.filter_append, List.take_zero, List.filter_cons_of_neg (by decide),
        List.filter_nil, List.append_nil, ← h.body]
      rfl
  · have hne : block.take contentLen ≠ [] := fun hnil => hzero (by rw [← hlen, hnil]; rfl)
    rw [HttpMsg.setContentRef, if_neg hzero]
    refine ⟨(h.distinct.set _ _).set _ _, ?_, ?_⟩
    · rw [List.getLast?_concat, Option.map_some, hlen]
      refine (get_set _ _ _ _).trans ?_
      rw [if_neg (by simp [htype])]
      exact (get_set _ _ _ _).trans (if_pos (strings.refl _))
    · rw [List.filter_append, List.filter_cons_of_pos (by simpa using hne), List.filter_nil,
        List.getLast?_concat, Option.getD_some]
      exact if_neg hzero

theorem Composed.apply {given : List (List UInt8)} (h : Composed given msg) (call : Call) :
    Composed (given ++ call.given.toList) (call.apply msg) := by
  cases call with
  | header name value other =>
    rw [Call.given, Option.toList_none, List.append_nil]
    exact h.setHeader other value
  | content bytes contentType =>
    rw [Call.apply, setContent_eq]
    simpa [Call.given] using h.setContentRef (Nat.le_refl bytes.length) contentType
  | contentRef block contentType contentLen fits => exact h.setContentRef fits contentType
  | requestLine method uri version =>
    rw [Call.given, Option.toList_none, List.append_nil, Call.apply, setRequestLine]
    split
    · split
      · exact h
      · exact h.of_eq rfl rfl rfl
    · exact h
  | statusLine status version =>
    rw [Call.given, Option.toList_none, List.append_nil, Call.apply, setStatusLine]
    split
    · exact h.of_eq rfl rfl rfl
    · exact h

theorem composed_send (type : MsgType) (buf : List UInt8) (calls : List Call) :
    Composed (contents calls) (send type buf calls) := by
  induction calls using List.reverseRecOn with
  | nil => exact composed_create
  | append_singleton calls call ih =>
    rw [send, List.foldl_concat, contents, List.filterMap_append]
    have hcall : [call].filterMap Call.given = call.given.toList := by
      cases hg : call.given <;> simp [hg]
    rw [hcall]
    exact ih.apply call

/-- One length is written, that of the content that was given last. -/
theorem Composed.contentLengths {given : List (List UInt8)} (h : Composed given msg)
    (hlast : given.getLast? = some content) :
    (parts msg).contentLengths = [printNat content.length] := by
  have hget := h.length
  rw [hlast, Option.map_some] at hget
  have hone := congrArg (List.map printStr) (h.distinct.map_filter hget)
  rw [Parts.contentLengths, parts, List.filter_map, List.map_map]
  rw [List.map_map] at hone
  exact hone

/-- What is written ends with the content, and has its length in one header. -/
def Framed (msg : Msg) (dst out content : List UInt8) : Prop :=
  out = dst ++ (parts msg).bytes ∧
    (parts msg).contentLengths = [printNat (parts msg).body.length] ∧ (parts msg).body = content

instance (msg : Msg) (dst out content : List UInt8) : Decidable (Framed msg dst out content) :=
  inferInstanceAs (Decidable (_ ∧ _ ∧ _))

/-- An answer whose content is replaced. -/
def replaced (content : List UInt8) : List Call :=
  [.statusLine .s200 .v1_1, .content (text "draft") (text "text/plain"),
    .contentRef content (text "text/plain") content.length (Nat.le_refl _)]

end Libuo.HttpContent
