import Libuo.BufferRuns
import Libuo.HttpParseSafety
import Libuo.TcpConn

/-!
# The body in the receive buffer

A message is received into a buffer that is enlarged when it is full, and parsed there. The body
is not copied: it is given by a pointer into the buffer, and a NUL is stored behind it.

The functions have the names of the source without `uo_tcp_conn_` and `uo_http_msg_`.
-/

namespace Libuo.HttpBodyBytes
open CStrings CText HttpMsg HttpParseSafety

/-- Why a receive stops: a start line or headers that are not well delimited, or a byte of a body
outside of the buffer. -/
inductive Stop where
  | parse | body
  deriving DecidableEq

/-- The receive buffer of a connection, and the message that is received. -/
structure Conn where
  rbuf : Buf
  msg : Msg
  deriving DecidableEq

variable (junk : ℕ → UInt8)

/-- The bytes that a pointer and a length give access to. -/
def expose (b : Buf) (offset len : ℕ) : Option (List UInt8) :=
  if offset + len ≤ b.getSize then some ((b.data.drop offset).take len) else none

namespace Conn

/-- The message, with what is before the position of the buffer. -/
def received (c : Conn) : Msg := { c.msg with buf := c.rbuf.content }

def beforeRecv (c : Conn) : Conn :=
  if c.rbuf.getLenAfterPtr = 0 then { c with rbuf := c.rbuf.realloc2x junk } else c

/-- The chunk has been read behind the position, and `uo_tcp_conn_recv` moves the position. -/
def recv (c : Conn) (chunk : List UInt8) : Option Conn :=
  (c.rbuf.write chunk).map fun rbuf => { c with rbuf }

def parseStartLine (c : Conn) : Except Stop (Conn × Bool) :=
  match HttpMsg.parseStartLine c.received with
  | .ok (msg, b) => .ok ({ c with msg }, b)
  | .error _ => .error .parse

def parseHeaders (c : Conn) : Except Stop (Conn × Bool) :=
  match c.rbuf.nullTerminate junk with
  | none => .error .parse
  | some rbuf =>
    match HttpMsg.parseHeaders { c with rbuf }.received with
    | .ok (msg, b) => .ok (⟨rbuf, msg⟩, b)
    | .error _ => .error .parse

/-- The body is given by its place in the buffer, and `body[content_len] = '\0'`. -/
def setBody (c : Conn) (contentLen : ℕ) : Option Conn := do
  let body ← expose c.rbuf c.msg.parsingOffset contentLen
  let rbuf ← c.rbuf.store (c.msg.parsingOffset + contentLen) [0]
  some ⟨rbuf, { c.msg with
    body := some body
    bodyLen := contentLen
    parsingOffset := 0
    hasBody := true }⟩

def parseBody (c : Conn) : Except Stop (Conn × Bool) :=
  let len := c.rbuf.ptr - c.msg.parsingOffset
  match getHeader c.msg (text "content-length") with
  | some contentLength =>
    match strtoull contentLength with
    | none => .ok ({ c with msg.isInvalid := true }, false)
    | some contentLen =>
      if contentLen > len then .ok (c, false)
      else
        match c.setBody contentLen with
        | some c => .ok (c, true)
        | none => .error .body
  | none =>
    if needsNoBody c.msg then .ok ({ c with msg.parsingOffset := 0, msg.hasBody := true }, true)
    else .ok ({ c with msg.isInvalid := true }, false)

/-- The headers, and the body if they are complete. -/
def afterRecvHeaders (c : Conn) : Except Stop (Conn × Bool) := do
  let (c, b) ← c.parseHeaders junk
  if b then c.parseBody else pure (c, false)

/-- `tcp_server_evt_handler_after_recv` and `tcp_client_evt_handler_after_recv` with a start line,
up to the calls of event handlers; the result is whether the message is complete. -/
def afterRecvStartLine (c : Conn) : Except Stop (Conn × Bool) :=
  if c.msg.hasHeaders then do
    let (c, b) ← c.parseBody
    if b then pure (c, true) else c.afterRecvHeaders junk
  else c.afterRecvHeaders junk

/-- `tcp_server_evt_handler_after_recv` and `tcp_client_evt_handler_after_recv`. -/
def afterRecv (c : Conn) : Except Stop (Conn × Bool) :=
  if c.msg.startLine then c.afterRecvStartLine junk
  else do
    let (c, b) ← c.parseStartLine
    if b then c.afterRecvStartLine junk else pure (c, false)

/-- One receive, from `uo_tcp_conn_before_recv` on. The chunk is one that there is room for. -/
def receive (c : Conn) (chunk : List UInt8) : Except Stop (Conn × Bool) :=
  match (c.beforeRecv junk).recv chunk with
  | some c => c.afterRecv junk
  | none => .error .parse

/-- A read gives at least one byte, and as many as there is room for at most. -/
def Reads (c : Conn) (chunk : List UInt8) : Prop :=
  chunk ≠ [] ∧ chunk.length ≤ (c.beforeRecv junk).rbuf.getLenAfterPtr

end Conn

/-- A connection whose next message is being received, chunk after chunk. The buffer is empty and
has some size when the message begins. -/
inductive Arriving (type : MsgType) (size : ℕ) : Conn → Prop
  | opened (b : Buf) : b.Valid → b.ptr = 0 → b.getSize = size →
    Arriving type size ⟨b, create type []⟩
  | receive {c c' : Conn} (chunk : List UInt8) : Arriving type size c → c.Reads junk chunk →
    c.receive junk chunk = .ok (c', false) → Arriving type size c'

/-- What `uo_http_msg_parse_body` writes and exposes in a receive is inside of the buffer. -/
def Inside (c : Conn) (chunk : List UInt8) : Prop := c.receive junk chunk ≠ .error .body

/-- The headers have been parsed before, the message ends with the last byte that is read, and its
length is that of the empty buffer doubled some number of times. -/
def EndsAtDoubling (size : ℕ) (c : Conn) (chunk : List UInt8) : Prop :=
  c.msg.hasHeaders = true ∧
    (∃ header contentLen, getHeader c.msg (text "content-length") = some header ∧
      strtoull header = some contentLen ∧
      c.msg.parsingOffset + contentLen = c.rbuf.ptr + chunk.length) ∧
    ∃ k, c.rbuf.ptr + chunk.length = size * 2 ^ k

variable {junk} {size : ℕ} {type : MsgType} {c c' : Conn} {b : Bool} {chunk : List UInt8}

/-- A buffer that had a size when it was empty, and has been doubled only when it was full. -/
structure Grown (size : ℕ) (b : Buf) : Prop where
  valid : b.Valid
  doubled : ∃ j, b.getSize = size * 2 ^ j ∧ ∀ i < j, size * 2 ^ i ≤ b.ptr

theorem Grown.of_size {b b' : Buf} (h : Grown size b) (hvalid : b'.Valid) (hptr : b.ptr ≤ b'.ptr)
    (hsize : b'.getSize = b.getSize) : Grown size b' := by
  obtain ⟨j, hj, hfull⟩ := h.doubled
  exact ⟨hvalid, j, hsize.trans hj, fun i hi => (hfull i hi).trans hptr⟩

theorem Grown.double {b b' : Buf} (h : Grown size b) (hfull : b.ptr = b.getSize)
    (hvalid : b'.Valid) (hptr : b'.ptr = b.ptr) (hsize : b'.getSize = b.getSize * 2) :
    Grown size b' := by
  obtain ⟨j, hj, hbefore⟩ := h.doubled
  refine ⟨hvalid, j + 1, by rw [hsize, hj, pow_succ, Nat.mul_assoc], fun i hi => ?_⟩
  rw [hptr]
  rcases Nat.lt_succ_iff_lt_or_eq.mp hi with hi | rfl
  · exact hbefore i hi
  · exact (hfull.trans hj).ge

theorem Grown.full_iff {b : Buf} {n : ℕ} (h : Grown size b) (hlt : b.ptr < n)
    (hle : n ≤ b.getSize) : n = b.getSize ↔ ∃ k, n = size * 2 ^ k := by
  obtain ⟨j, hj, hbefore⟩ := h.doubled
  constructor
  · intro hn
    exact ⟨j, hn.trans hj⟩
  · rintro ⟨k, rfl⟩
    rw [hj] at hle ⊢
    have hk : ¬ k < j := fun hkj => absurd (hbefore k hkj) (Nat.not_le.mpr hlt)
    rcases Nat.lt_or_eq_of_le (Nat.le_of_not_lt hk) with hjk | rfl
    · have hmono := Nat.mul_le_mul_left size (Nat.pow_le_pow_right Nat.two_pos hjk.le)
      exact Nat.le_antisymm hle hmono
    · rfl

theorem beforeRecv_spec (h : Grown size c.rbuf) :
    Grown size (c.beforeRecv junk).rbuf ∧ (c.beforeRecv junk).rbuf.ptr = c.rbuf.ptr ∧
      (c.beforeRecv junk).rbuf.content = c.rbuf.content ∧ (c.beforeRecv junk).msg = c.msg := by
  rw [Conn.beforeRecv]
  split
  · rename_i hzero
    rw [Buf.getLenAfterPtr] at hzero
    exact ⟨h.double (by omega) h.valid.realloc2x rfl Buf.getSize_realloc2x, rfl,
      Buf.content_realloc2x h.valid.ptr_le, rfl⟩
  · exact ⟨h, rfl, rfl, rfl⟩

theorem nullTerminate_grown {b : Buf} (h : Grown size b) :
    ∃ b', b.nullTerminate junk = some b' ∧ Grown size b' ∧ b'.ptr = b.ptr ∧
      b'.content = b.content ∧ b'.ptr < b'.getSize := by
  obtain ⟨b', hb', hvalid, hcontent, hsize⟩ := Buf.nullTerminate_spec junk h.valid
  have hptr : b'.ptr = b.ptr := by
    rw [← hvalid.length_content, hcontent, h.valid.length_content]
  have hle := h.valid.ptr_le
  have hpos := h.valid.size_pos
  split at hsize
  · rename_i hfull
    exact ⟨b', hb', h.double hfull hvalid hptr hsize, hptr, hcontent, by omega⟩
  · exact ⟨b', hb', h.of_size hvalid hptr.ge hsize, hptr, hcontent, by omega⟩

/-- The offset is inside of what has been received, once there is a start line. -/
structure Inv (size : ℕ) (c : Conn) : Prop where
  grown : Grown size c.rbuf
  offset : c.msg.startLine = true → 2 ≤ c.msg.parsingOffset ∧ c.msg.parsingOffset ≤ c.rbuf.ptr
  headers : c.msg.hasHeaders = true → c.msg.startLine = true

theorem parseStartLine_inv (h : Inv size c) (hno : c.msg.startLine = false)
    (hp : c.parseStartLine = .ok (c', b)) : Inv size c' ∧ c'.rbuf = c.rbuf ∧
      c'.msg.hasHeaders = false ∧ (b = true → c'.msg.startLine = true) := by
  have hnone : c.msg.hasHeaders = false := by
    cases hh : c.msg.hasHeaders with
    | false => rfl
    | true => cases hno.symm.trans (h.headers hh)
  rw [Conn.parseStartLine] at hp
  split at hp
  · rename_i msg b' hmsg
    obtain ⟨rfl, rfl⟩ := Prod.mk.inj (Except.ok.inj hp)
    obtain ⟨rfl, rfl, -⟩ | ⟨cr, hcr, hline⟩ := parseStartLine_cases hmsg
    · exact ⟨⟨h.grown, h.offset, h.headers⟩, rfl, hnone, nofun⟩
    · have hkept : msg.hasHeaders = false := hline.kept.hasHeaders.trans hnone
      have hlt : cr + 2 ≤ c.rbuf.ptr := h.grown.valid.length_content ▸ hcr.lt
      refine ⟨⟨h.grown, fun hstart => ?_, fun hh => ?_⟩, rfl, hkept,
        fun hb => (hline.parsed hb).2.1⟩
      · cases b' with
        | false => cases hstart.symm.trans ((hline.rejected rfl).2.trans hno)
        | true =>
          change 2 ≤ msg.parsingOffset ∧ msg.parsingOffset ≤ c.rbuf.ptr
          rw [(hline.parsed rfl).2.2]
          exact ⟨Nat.le_add_left _ _, hlt⟩
      · cases hkept.symm.trans hh
  · cases hp

theorem parseHeaders_inv (h : Inv size c) (hyes : c.msg.startLine = true)
    (hp : c.parseHeaders junk = .ok (c', b)) :
    Inv size c' ∧ c'.msg.startLine = true ∧ c'.rbuf.ptr < c'.rbuf.getSize := by
  obtain ⟨b', hb', hgrown, hptr, hcontent, hroom⟩ := @nullTerminate_grown junk _ _ h.grown
  obtain ⟨hfront, hback⟩ := h.offset hyes
  rw [Conn.parseHeaders, hb'] at hp
  simp only at hp
  split at hp
  · rename_i msg found hmsg
    obtain ⟨rfl, rfl⟩ := Prod.mk.inj (Except.ok.inj hp)
    have hlen : b'.content.length = c.rbuf.ptr := by rw [hcontent, h.grown.valid.length_content]
    obtain ⟨-, ⟨rfl, -, -⟩ | ⟨i, headers, hi, -, rfl⟩⟩ := parseHeaders_cases hmsg
    · exact ⟨⟨hgrown, fun _ => ⟨hfront, hptr ▸ hback⟩, h.headers⟩, hyes, hroom⟩
    · refine ⟨⟨hgrown, fun _ => ⟨by simp, ?_⟩, fun _ => hyes⟩, hyes, hroom⟩
      have := hi.le hfront
      rw [hptr]
      exact hlen ▸ this
  · cases hp

theorem parseBody_error_iff (h : Inv size c) (hyes : c.msg.startLine = true) :
    c.parseBody = .error .body ↔
      (∃ header contentLen, getHeader c.msg (text "content-length") = some header ∧
        strtoull header = some contentLen ∧ c.msg.parsingOffset + contentLen = c.rbuf.ptr) ∧
      c.rbuf.ptr = c.rbuf.getSize := by
  obtain ⟨-, hback⟩ := h.offset hyes
  have hle := h.grown.valid.ptr_le
  rw [Conn.parseBody]
  cases hheader : getHeader c.msg (text "content-length") with
  | none =>
    simp only
    constructor
    · intro herr
      split at herr <;> cases herr
    · rintro ⟨⟨header, n, hnone, -⟩, -⟩
      cases hnone
  | some header =>
    cases hlen : strtoull header with
    | none =>
      simp only [hlen]
      constructor
      · intro herr
        cases herr
      · rintro ⟨⟨header', n, hsame, hn, -⟩, -⟩
        obtain rfl := Option.some.inj hsame
        cases hlen.symm.trans hn
    | some n =>
      simp only [hlen]
      by_cases hmore : n > c.rbuf.ptr - c.msg.parsingOffset
      · rw [if_pos hmore]
        constructor
        · intro herr
          cases herr
        · rintro ⟨⟨header', n', hsame, hn, heq⟩, -⟩
          obtain rfl := Option.some.inj hsame
          obtain rfl := Option.some.inj (hlen.symm.trans hn)
          omega
      · rw [if_neg hmore]
        have hexpose : expose c.rbuf c.msg.parsingOffset n =
            some ((c.rbuf.data.drop c.msg.parsingOffset).take n) := if_pos (by omega)
        by_cases hfits : c.msg.parsingOffset + n + 1 ≤ c.rbuf.getSize
        · obtain ⟨rbuf, hstore, -⟩ := Buf.store_spec c.rbuf (c.msg.parsingOffset + n) [0] hfits
          rw [Conn.setBody, hexpose, hstore]
          constructor
          · intro herr
            cases herr
          · rintro ⟨⟨header', n', hsame, hn, heq⟩, hfull⟩
            obtain rfl := Option.some.inj hsame
            obtain rfl := Option.some.inj (hlen.symm.trans hn)
            omega
        · have hstore : c.rbuf.store (c.msg.parsingOffset + n) [0] = none := if_neg hfits
          rw [Conn.setBody, hexpose, hstore]
          exact ⟨fun _ => ⟨⟨header, n, rfl, hlen, by omega⟩, by omega⟩, fun _ => rfl⟩

theorem setBody_received {n : ℕ} (hvalid : c.rbuf.Valid)
    (hle : c.msg.parsingOffset + n ≤ c.rbuf.ptr) (h : c.setBody n = some c') :
    c'.received = { c.received with
      body := some ((c.received.buf.drop c.msg.parsingOffset).take n)
      buf := c.received.buf.set (c.msg.parsingOffset + n) 0
      bodyLen := n
      parsingOffset := 0
      hasBody := true } := by
  have hptr : c.rbuf.ptr ≤ c.rbuf.data.length := hvalid.ptr_le
  have hbody : (c.rbuf.data.drop c.msg.parsingOffset).take n =
      (c.rbuf.content.drop c.msg.parsingOffset).take n := by
    rw [Buf.content, List.drop_take, List.take_take, Nat.min_eq_left (by omega)]
  have hexpose : expose c.rbuf c.msg.parsingOffset n =
      some ((c.rbuf.data.drop c.msg.parsingOffset).take n) :=
    if_pos (hle.trans hptr)
  simp only [Conn.setBody, hexpose, hbody, Option.bind_eq_bind, Option.bind_some,
    Option.bind_eq_some_iff] at h
  obtain ⟨rbuf, hstore, h⟩ := h
  obtain rfl := Option.some.inj h
  have hcontent : rbuf.content = c.rbuf.content.set (c.msg.parsingOffset + n) 0 := by
    rw [Buf.store] at hstore
    split at hstore
    · rename_i hfits
      have hfits : c.msg.parsingOffset + n + 1 ≤ c.rbuf.data.length := hfits
      obtain rfl := Option.some.inj hstore
      change (c.rbuf.data.take _ ++ [0] ++ c.rbuf.data.drop _).take c.rbuf.ptr = _
      rw [Buf.content, ← List.take_set, List.set_eq_take_append_cons_drop, if_pos (by omega)]
      simp
    · cases hstore
  simp only [Conn.received, hcontent]

/-- What is parsed in the buffer is what is parsed from its content. -/
theorem parseBody_received (h : Inv size c) (hyes : c.msg.startLine = true)
    (hp : c.parseBody = .ok (c', b)) : HttpMsg.parseBody c.received = (c'.received, b) := by
  obtain ⟨-, hback⟩ := h.offset hyes
  have hlen : c.received.buf.length = c.rbuf.ptr := h.grown.valid.length_content
  have hheader : getHeader c.received (text "content-length") =
      getHeader c.msg (text "content-length") := rfl
  have hneeds : needsNoBody c.received = needsNoBody c.msg := rfl
  have hoffset : c.received.parsingOffset = c.msg.parsingOffset := rfl
  rw [Conn.parseBody] at hp
  rw [HttpMsg.parseBody, hheader, hneeds, hlen, hoffset]
  cases heq : getHeader c.msg (text "content-length") with
  | some header =>
    rw [heq] at hp
    cases hvalue : strtoull header with
    | none =>
      simp only [hvalue] at hp ⊢
      obtain ⟨rfl, rfl⟩ := Prod.mk.inj (Except.ok.inj hp)
      rfl
    | some n =>
      simp only [hvalue] at hp ⊢
      by_cases hmore : n > c.rbuf.ptr - c.msg.parsingOffset
      · rw [if_pos hmore] at hp ⊢
        obtain ⟨rfl, rfl⟩ := Prod.mk.inj (Except.ok.inj hp)
        rfl
      · rw [if_neg hmore] at hp ⊢
        cases hset : c.setBody n with
        | none =>
          rw [hset] at hp
          cases hp
        | some c₁ =>
          rw [hset] at hp
          obtain ⟨rfl, rfl⟩ := Prod.mk.inj (Except.ok.inj hp)
          rw [setBody_received h.grown.valid (by omega) hset]
  | none =>
    rw [heq] at hp
    by_cases hno : needsNoBody c.msg = true
    · simp only [if_pos hno] at hp ⊢
      obtain ⟨rfl, rfl⟩ := Prod.mk.inj (Except.ok.inj hp)
      rfl
    · simp only [if_neg hno] at hp ⊢
      obtain ⟨rfl, rfl⟩ := Prod.mk.inj (Except.ok.inj hp)
      rfl

theorem parseBody_inv (h : Inv size c) (hp : c.parseBody = .ok (c', false)) :
    Inv size c' ∧ c'.msg.startLine = c.msg.startLine := by
  rw [Conn.parseBody] at hp
  split at hp
  · split at hp
    · obtain ⟨rfl, -⟩ := Prod.mk.inj (Except.ok.inj hp)
      exact ⟨⟨h.grown, h.offset, h.headers⟩, rfl⟩
    · split at hp
      · obtain ⟨rfl, -⟩ := Prod.mk.inj (Except.ok.inj hp)
        exact ⟨h, rfl⟩
      · split at hp <;> cases hp
  · split at hp
    · cases hp
    · obtain ⟨rfl, -⟩ := Prod.mk.inj (Except.ok.inj hp)
      exact ⟨⟨h.grown, h.offset, h.headers⟩, rfl⟩

/-- Behind the headers there is room for the NUL, which has been made for their end. -/
theorem afterRecvHeaders_inv (h : Inv size c) (hyes : c.msg.startLine = true) :
    c.afterRecvHeaders junk ≠ .error .body ∧
      ∀ c', c.afterRecvHeaders junk = .ok (c', false) → Inv size c' := by
  rw [Conn.afterRecvHeaders]
  cases hp : c.parseHeaders junk with
  | error e =>
    refine ⟨fun herr => ?_, fun c' hok => (by cases hok)⟩
    obtain rfl : e = .body := Except.error.inj herr
    rw [Conn.parseHeaders] at hp
    split at hp
    · cases hp
    · split at hp <;> cases hp
  | ok r =>
    obtain ⟨c₁, found⟩ := r
    obtain ⟨hinv, hyes₁, hroom⟩ := parseHeaders_inv h hyes hp
    cases found with
    | false =>
      refine ⟨fun herr => (by cases herr), fun c' hok => ?_⟩
      obtain ⟨rfl, -⟩ := Prod.mk.inj (Except.ok.inj hok)
      exact hinv
    | true =>
      refine ⟨fun herr => ?_, fun c' hok => (parseBody_inv hinv hok).1⟩
      have hfull := ((parseBody_error_iff hinv hyes₁).mp herr).2
      omega

theorem afterRecvStartLine_inv (h : Inv size c) (hyes : c.msg.startLine = true) :
    (c.afterRecvStartLine junk = .error .body ↔
      c.msg.hasHeaders = true ∧ c.parseBody = .error .body) ∧
    ∀ c', c.afterRecvStartLine junk = .ok (c', false) → Inv size c' := by
  obtain ⟨hne, hinv⟩ := @afterRecvHeaders_inv junk _ _ h hyes
  rw [Conn.afterRecvStartLine]
  by_cases hh : c.msg.hasHeaders = true
  · rw [if_pos hh]
    cases hp : c.parseBody with
    | error e => exact ⟨⟨fun herr => ⟨hh, herr⟩, And.right⟩, fun c' hok => (by cases hok)⟩
    | ok r =>
      obtain ⟨c₁, complete⟩ := r
      cases complete with
      | true =>
        refine ⟨⟨fun herr => (by cases herr), fun herr => (by cases herr.2)⟩, fun c' hok => ?_⟩
        cases (Prod.mk.inj (Except.ok.inj hok)).2
      | false =>
        obtain ⟨hinv₁, hsame⟩ := parseBody_inv h hp
        obtain ⟨hne₁, hnext⟩ := @afterRecvHeaders_inv junk _ _ hinv₁ (hsame.trans hyes)
        exact ⟨⟨fun herr => absurd herr hne₁, fun herr => (by cases herr.2)⟩, hnext⟩
  · rw [if_neg hh]
    exact ⟨⟨fun herr => absurd herr hne, fun herr => absurd herr.1 hh⟩, hinv⟩

theorem afterRecv_inv (h : Inv size c) :
    (c.afterRecv junk = .error .body ↔ c.msg.hasHeaders = true ∧ c.parseBody = .error .body) ∧
      ∀ c', c.afterRecv junk = .ok (c', false) → Inv size c' := by
  rw [Conn.afterRecv]
  cases hstart : c.msg.startLine with
  | true =>
    rw [if_pos rfl]
    exact afterRecvStartLine_inv h hstart
  | false =>
    rw [if_neg Bool.false_ne_true]
    have hnone : ¬ c.msg.hasHeaders = true := fun hh => by cases hstart.symm.trans (h.headers hh)
    cases hp : c.parseStartLine with
    | error e =>
      refine ⟨⟨fun herr => ?_, fun herr => absurd herr.1 hnone⟩, fun c' hok => (by cases hok)⟩
      obtain rfl : e = .body := Except.error.inj herr
      rw [Conn.parseStartLine] at hp
      split at hp <;> cases hp
    | ok r =>
      obtain ⟨c₁, found⟩ := r
      obtain ⟨hinv, -, hnone₁, hyes⟩ := parseStartLine_inv h hstart hp
      cases found with
      | false =>
        refine ⟨⟨fun herr => (by cases herr), fun herr => absurd herr.1 hnone⟩, fun c' hok => ?_⟩
        obtain ⟨rfl, -⟩ := Prod.mk.inj (Except.ok.inj hok)
        exact hinv
      | true =>
        obtain ⟨herr, hnext⟩ := @afterRecvStartLine_inv junk _ _ hinv (hyes rfl)
        refine ⟨⟨fun h => ?_, fun h => absurd h.1 hnone⟩, hnext⟩
        cases hnone₁.symm.trans (herr.mp h).1

/-- One read: the buffer is enlarged if it is full, and the chunk is behind what was there. -/
theorem recv_inv (h : Inv size c) (hchunk : c.Reads junk chunk) :
    ∃ c₁, (c.beforeRecv junk).recv chunk = some c₁ ∧ Inv size c₁ ∧ c₁.msg = c.msg ∧
      c₁.rbuf.ptr = c.rbuf.ptr + chunk.length ∧
      (c₁.rbuf.ptr = c₁.rbuf.getSize ↔ ∃ k, c₁.rbuf.ptr = size * 2 ^ k) := by
  obtain ⟨hgrown, hptr, hcontent, hmsg⟩ := @beforeRecv_spec junk _ _ h.grown
  obtain ⟨rbuf, hwrite, hvalid, hcontent₁, hsize⟩ := Buf.write_spec hgrown.valid chunk hchunk.2
  have hptr₁ : rbuf.ptr = c.rbuf.ptr + chunk.length := by
    rw [← hvalid.length_content, hcontent₁, hcontent, List.length_append,
      h.grown.valid.length_content]
  have hpos := List.length_pos_of_ne_nil hchunk.1
  have hbehind : (c.beforeRecv junk).rbuf.ptr ≤ rbuf.ptr := by omega
  refine ⟨{ c.beforeRecv junk with rbuf }, by rw [Conn.recv, hwrite]; rfl,
    ⟨hgrown.of_size hvalid hbehind hsize, fun hstart => ?_, fun hh => ?_⟩, hmsg, hptr₁, ?_⟩
  · obtain ⟨hfront, hback⟩ := h.offset (hmsg ▸ hstart)
    change 2 ≤ (c.beforeRecv junk).msg.parsingOffset ∧
      (c.beforeRecv junk).msg.parsingOffset ≤ rbuf.ptr
    rw [hmsg]
    exact ⟨hfront, by omega⟩
  · exact hmsg ▸ h.headers (hmsg ▸ hh)
  · have hle := hvalid.ptr_le
    change rbuf.ptr = rbuf.getSize ↔ ∃ k, rbuf.ptr = size * 2 ^ k
    rw [hsize] at hle ⊢
    exact hgrown.full_iff (n := rbuf.ptr) (by omega) hle

theorem Arriving.inv (h : Arriving junk type size c) : Inv size c := by
  induction h with
  | opened b hvalid hptr hsize =>
    exact ⟨⟨hvalid, 0, by rw [hsize, pow_zero, Nat.mul_one], nofun⟩, nofun, nofun⟩
  | @receive c c' chunk _ hchunk hreceive ih =>
    obtain ⟨c₁, hrecv, hinv, -⟩ := recv_inv ih hchunk
    rw [Conn.receive, hrecv] at hreceive
    exact (afterRecv_inv hinv).2 c' hreceive

/-- For every message and every way it arrives: a receive stays inside of the buffer, unless the
headers were parsed before it, and the body ends with the last byte that is read and with the
buffer. -/
theorem inside_iff (h : Arriving junk type size c) (hchunk : c.Reads junk chunk) :
    Inside junk c chunk ↔ ¬ EndsAtDoubling size c chunk := by
  obtain ⟨c₁, hrecv, hinv, hmsg, hptr, hfull⟩ := recv_inv h.inv hchunk
  rw [Inside, Ne, not_iff_not, Conn.receive, hrecv, (afterRecv_inv hinv).1, EndsAtDoubling, hmsg,
    ← hptr, ← hfull]
  refine and_congr_right fun hh => ?_
  rw [parseBody_error_iff hinv (hinv.headers (hmsg ▸ hh)), hmsg]

/-- An upload of 512 bytes, with 40 in front of the body. -/
def uploadHead : List UInt8 := text "POST / HTTP/1.1\r\nContent-Length: 472\r\n\r\n"

def uploadBody : List UInt8 := List.replicate 472 (chr 'a')

def fresh : Conn := ⟨Buf.alloc (fun _ => 0) TcpConn.bufSize, create .request []⟩

/-- The connection after a receive that gives no message. -/
def Conn.waiting (c : Conn) (chunk : List UInt8) : Conn :=
  match c.receive (fun _ => 0) chunk with
  | .ok (c', false) => c'
  | _ => c

def afterHead : Conn := fresh.waiting uploadHead

/-- A part of the body has come. -/
def afterPart : Conn := afterHead.waiting (uploadBody.take 200)

theorem arriving_fresh : Arriving (fun _ => 0) .request 512 fresh :=
  .opened _ (Buf.alloc_valid _ (by decide)) rfl (by decide +kernel)

theorem arriving_afterHead : Arriving (fun _ => 0) .request 512 afterHead :=
  .receive uploadHead arriving_fresh ⟨by decide, by decide +kernel⟩ (by decide +kernel)

theorem arriving_afterPart : Arriving (fun _ => 0) .request 512 afterPart :=
  .receive (uploadBody.take 200) arriving_afterHead ⟨by decide, by decide +kernel⟩
    (by decide +kernel)

/-- All but the last byte of the rest stay inside, the whole rest does not. -/
theorem inside_iff_afterPart : Inside (fun _ => 0) afterPart (uploadBody.drop 201) ∧
    ¬ Inside (fun _ => 0) afterPart (uploadBody.drop 200) := by
  constructor
  · refine (inside_iff arriving_afterPart ⟨by decide +kernel, by decide +kernel⟩).mpr ?_
    rintro ⟨-, -, k, hk⟩
    have hlen : afterPart.rbuf.ptr + (uploadBody.drop 201).length = 511 := by decide +kernel
    have hpos := Nat.two_pow_pos k
    omega
  · rw [inside_iff arriving_afterPart ⟨by decide +kernel, by decide +kernel⟩, not_not]
    refine ⟨by decide +kernel, ⟨text "472", 472, ?_, ?_, ?_⟩, 0, ?_⟩ <;> decide +kernel

theorem not_inside_upload : ¬ ∀ (junk : ℕ → UInt8) (type : MsgType) (size : ℕ) (c : Conn)
    (chunk : List UInt8), Arriving junk type size c → c.Reads junk chunk → Inside junk c chunk := by
  intro h
  have houtside : afterHead.receive (fun _ => 0) uploadBody = .error .body := by decide +kernel
  exact h _ _ _ afterHead uploadBody arriving_afterHead ⟨by decide, by decide +kernel⟩ houtside

end Libuo.HttpBodyBytes
