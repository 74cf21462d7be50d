import Libuo.TcpConn
import Mathlib.Data.List.Induction

/-!
# Length-prefixed messages

The sender puts the length of a message before it, as four bytes in network
order. The receiver decides after each chunk whether the message is complete. It
asks for the rest of an incomplete message, but closes the connection while it
has not yet seen the four bytes of the length.
-/

namespace Libuo.TcpFraming
open TcpConn

/-- The bytes of a 32-bit number in network order, as `htonl` leaves them in memory. -/
def htonl (n : ℕ) : List UInt8 :=
  [UInt8.ofNat (n / 2 ^ 24), UInt8.ofNat (n / 2 ^ 16), UInt8.ofNat (n / 2 ^ 8), UInt8.ofNat n]

/-- The number whose bytes in network order are given. -/
def ntohl (l : List UInt8) : ℕ := l.foldl (fun n b => n * 256 + b.toNat) 0

@[simp] theorem length_htonl (n : ℕ) : (htonl n).length = 4 := rfl

theorem ntohl_htonl {n : ℕ} (h : n < 2 ^ 32) : ntohl (htonl n) = n := by
  simp only [htonl, ntohl, List.foldl_cons, List.foldl_nil, UInt8.toNat_ofNat']
  omega

/-- A message with its length before it. -/
def frame (msg : List UInt8) : List UInt8 := htonl msg.length ++ msg

@[simp] theorem length_frame (msg : List UInt8) : (frame msg).length = 4 + msg.length := by
  simp [frame]

variable (junk : ℕ → UInt8)

/-- `uo_tcp_conn_before_send_length_prefixed_msg`; `len` has 32 bits, and the
signed free length is compared as an unsigned number. -/
def beforeSendLengthPrefixedMsg (c : Conn) : Option Conn := do
  let len := c.wbuf.getLenBeforePtr % 2 ^ 32
  let wbuf := if c.wbuf.getLenAfterPtr % 2 ^ 64 < 4 then c.wbuf.realloc2x junk else c.wbuf
  let wbuf := wbuf.setPtrRel 4
  let wbuf ← wbuf.store 4 (wbuf.data.take len)
  let wbuf ← wbuf.store 0 (htonl len)
  some { c with wbuf := wbuf }

def afterRecvLengthPrefixedMsg (c : Conn) : Option Conn :=
  let len := c.rbuf.getLenBeforePtr % 2 ^ 32
  if len < 4 then some c.nextClose
  else
    let len := len - 4
    if ntohl (c.rbuf.data.take 4) > len then some c.nextRecv
    else do
      let rbuf ← c.rbuf.store 0 ((c.rbuf.data.drop 4).take len)
      some { c with rbuf := rbuf.setPtrRel (-4), evtArg.isMsgFullyReceived := true }

/-- One round of the receiver: the pending receive has been taken from the state,
a chunk arrives, and the handler runs. -/
def receive (c : Conn) (chunk : List UInt8) : Option Conn := do
  let c ← { c with state := .none }.recv junk chunk
  afterRecvLengthPrefixedMsg c

/-- The receiver over a sequence of chunks. -/
def receiveAll (c : Conn) (chunks : List (List UInt8)) : Option Conn :=
  chunks.foldlM (receive junk) c

/-- After every chunk but the last, another receive is pending and the message is
not complete; after the last one, exactly the message has been received. -/
structure Delivers (c : Conn) (chunks : List (List UInt8)) (msg : List UInt8) : Prop where
  asks : ∀ pre post, chunks = pre ++ post → pre ≠ [] → post ≠ [] →
    ∃ c', receiveAll junk c pre = some c' ∧ c'.state = .recv ∧
      c'.evtArg.isMsgFullyReceived = false
  received : ∃ c', receiveAll junk c chunks = some c' ∧
    c'.evtArg.isMsgFullyReceived = true ∧ c'.rbuf.content = msg ∧ c'.rbuf.ptr = msg.length

variable {junk} {c : Conn} {msg chunk : List UInt8} {chunks : List (List UInt8)}

theorem beforeSend_spec (junk : ℕ → UInt8) (hw : c.wbuf.Valid) (h4 : 4 ≤ c.wbuf.getSize)
    (hlen : c.wbuf.ptr < 2 ^ 31) :
    ∃ c', beforeSendLengthPrefixedMsg junk c = some c' ∧
      c'.wbuf.content = frame c.wbuf.content := by
  obtain ⟨w, hwdef, hwv, hwp, hwc, hroom⟩ : ∃ w,
      (if c.wbuf.getLenAfterPtr % 2 ^ 64 < 4 then c.wbuf.realloc2x junk else c.wbuf) = w ∧
        w.Valid ∧ w.ptr = c.wbuf.ptr ∧ w.content = c.wbuf.content ∧ w.ptr + 4 ≤ w.getSize := by
    have hle := hw.ptr_le
    split_ifs with h
    · refine ⟨_, rfl, hw.realloc2x, rfl, Buf.content_realloc2x hle, ?_⟩
      simp only [Buf.ptr_realloc2x, Buf.getSize_realloc2x]
      omega
    · refine ⟨_, rfl, hw, rfl, rfl, ?_⟩
      simp only [Buf.getLenAfterPtr] at h
      omega
  have hlen' : c.wbuf.getLenBeforePtr % 2 ^ 32 = w.ptr := by
    rw [Buf.getLenBeforePtr, hwp]
    omega
  have hmsg : (w.data.take w.ptr).length = w.ptr := hwv.length_content
  have hptr : (w.setPtrRel 4).ptr = w.ptr + 4 := by
    simp only [Buf.setPtrRel]
    omega
  obtain ⟨w1, hs1, hp1, hz1, hd1⟩ := Buf.store_spec (w.setPtrRel 4) 4
    (w.data.take w.ptr) (by rw [hmsg, Buf.getSize_setPtrRel]; omega)
  obtain ⟨w2, hs2, hp2, -, hd2⟩ := Buf.store_spec w1 0 (htonl w.ptr)
    (by rw [hz1, Buf.getSize_setPtrRel]; simp; omega)
  refine ⟨{ c with wbuf := w2 }, ?_, ?_⟩
  · simp only [beforeSendLengthPrefixedMsg, hwdef, hlen']
    change (Buf.store _ 4 (w.data.take w.ptr)).bind _ = _
    simp [hs1, hs2]
  · have h4' : (w.data.take 4).length = 4 := by
      have : w.ptr + 4 ≤ w.data.length := hroom
      rw [List.length_take]
      omega
    have hdata : w2.data = htonl w.ptr ++ w.data.take w.ptr ++ w.data.drop (4 + w.ptr) := by
      rw [hd2, hd1, hmsg]
      simp [Buf.setPtrRel, h4', List.append_assoc]
    have hfull : (htonl w.ptr ++ w.data.take w.ptr).length = w.ptr + 4 := by
      rw [List.length_append, hmsg, length_htonl]
      omega
    rw [← hwc]
    simp only [Buf.content, hp2, hp1, hptr, frame]
    rw [hdata, ← hfull, List.take_left, hmsg]

theorem afterRecv_short (hb : c.rbuf.Valid) (h : c.rbuf.content.length < 4) :
    afterRecvLengthPrefixedMsg c = some c.nextClose := by
  rw [hb.length_content] at h
  have hlt : c.rbuf.getLenBeforePtr % 2 ^ 32 < 4 := by
    rw [Buf.getLenBeforePtr]
    omega
  simp only [afterRecvLengthPrefixedMsg, hlt, if_true]

private theorem take_data (hb : c.rbuf.Valid) {p q : List UInt8} (h : c.rbuf.content = p ++ q) :
    ∃ rest, c.rbuf.data = p ++ q ++ rest ∧ c.rbuf.ptr = p.length + q.length := by
  refine ⟨c.rbuf.data.drop c.rbuf.ptr, ?_, ?_⟩
  · rw [← h]
    exact (List.take_append_drop _ _).symm
  · rw [← hb.length_content, h, List.length_append]

theorem afterRecv_partial {part : List UInt8} (hb : c.rbuf.Valid)
    (h : c.rbuf.content = htonl msg.length ++ part) (hlen : msg.length < 2 ^ 31)
    (hpart : part.length < msg.length) :
    afterRecvLengthPrefixedMsg c = some c.nextRecv := by
  obtain ⟨rest, hd, hp⟩ := take_data hb h
  have h4 : c.rbuf.data.take 4 = htonl msg.length := by
    rw [hd, List.append_assoc]
    rfl
  rw [length_htonl] at hp
  have hl : c.rbuf.getLenBeforePtr % 2 ^ 32 = 4 + part.length := by
    rw [Buf.getLenBeforePtr, hp]
    omega
  simp only [afterRecvLengthPrefixedMsg, hl, h4,
    ntohl_htonl (show msg.length < 2 ^ 32 by omega)]
  rw [if_neg (by omega), if_pos (by omega)]

theorem afterRecv_full (hb : c.rbuf.Valid) (h : c.rbuf.content = frame msg)
    (hlen : msg.length < 2 ^ 31) :
    ∃ c', afterRecvLengthPrefixedMsg c = some c' ∧ c'.evtArg.isMsgFullyReceived = true ∧
      c'.rbuf.content = msg ∧ c'.rbuf.ptr = msg.length := by
  obtain ⟨rest, hd, hp⟩ := take_data hb h
  have h4 : c.rbuf.data.take 4 = htonl msg.length := by
    rw [hd, List.append_assoc]
    rfl
  rw [length_htonl] at hp
  have hl : c.rbuf.getLenBeforePtr % 2 ^ 32 = 4 + msg.length := by
    rw [Buf.getLenBeforePtr, hp]
    omega
  have hmove : (c.rbuf.data.drop 4).take msg.length = msg := by
    rw [hd]
    simp [htonl]
  obtain ⟨b, hs, hbp, -, hbd⟩ := Buf.store_spec c.rbuf 0 msg
    (by have := hb.ptr_le; omega)
  refine ⟨{ c with rbuf := b.setPtrRel (-4), evtArg.isMsgFullyReceived := true }, ?_, rfl, ?_, ?_⟩
  · simp only [afterRecvLengthPrefixedMsg, hl, h4,
      ntohl_htonl (show msg.length < 2 ^ 32 by omega), Nat.add_sub_cancel_left, hmove]
    rw [if_neg (by omega), if_neg (by omega), hs]
    rfl
  · have hptr : (b.setPtrRel (-4)).ptr = msg.length := by
      simp only [Buf.setPtrRel, hbp]
      omega
    simp only [Buf.content, hptr]
    change b.data.take _ = _
    rw [hbd]
    simp
  · simp only [Buf.setPtrRel, hbp]
    omega

/-- A receiver before the first chunk of a message. -/
structure Ready (c : Conn) : Prop where
  wf : c.Wf
  empty : c.rbuf.content = []
  waiting : c.evtArg.isMsgFullyReceived = false

theorem create_ready (junk : ℕ → UInt8) : Ready (create junk) :=
  ⟨Conn.create_wf junk, by simp [create, Buf.content, Buf.alloc], rfl⟩

/-- The bytes received so far, a proper part of a framed message, and the request
the handler has made about them. -/
structure Partial (c : Conn) (part : List UInt8) : Prop where
  wf : c.Wf
  content : c.rbuf.content = part
  waiting : c.evtArg.isMsgFullyReceived = false
  state : c.state = if part.length < 4 then .close else .recv

private theorem split_frame {part rest : List UInt8} (h : part ++ rest = frame msg)
    (hrest : rest ≠ []) (h4 : 4 ≤ part.length) :
    ∃ body, part = htonl msg.length ++ body ∧ body.length < msg.length := by
  have htake := congrArg (List.take 4) h
  rw [List.take_append_of_le_length h4, frame] at htake
  change part.take 4 = htonl msg.length at htake
  refine ⟨part.drop 4, by rw [← htake, List.take_append_drop], ?_⟩
  have hl := congrArg List.length h
  have hpos := List.length_pos_iff.mpr hrest
  simp only [List.length_append, length_frame, List.length_drop] at hl ⊢
  omega

theorem receive_partial (junk : ℕ → UInt8) (chunk : List UInt8) {rest : List UInt8} (hb : c.Wf)
    (hw : c.evtArg.isMsgFullyReceived = false)
    (h : c.rbuf.content ++ chunk ++ rest = frame msg) (hrest : rest ≠ [])
    (hlen : msg.length < 2 ^ 31) :
    ∃ c', receive junk c chunk = some c' ∧ Partial c' (c.rbuf.content ++ chunk) := by
  have hb' : Conn.Wf { c with state := .none } := ⟨hb.1, hb.2, hb.3, hb.4⟩
  obtain ⟨c1, hr, hv, hc, hwb, hs, hf⟩ := hb'.recv junk chunk
  rcases Nat.lt_or_ge (c.rbuf.content ++ chunk).length 4 with h4 | h4
  · have hshort := afterRecv_short hv.rbuf_valid (hc ▸ h4)
    refine ⟨c1.nextClose, by simp [receive, hr, hshort], ?_, ?_, ?_, ?_⟩
    · exact hv.nextState _
    · simpa [Conn.nextClose] using hc
    · simpa [Conn.nextClose] using hf.trans hw
    · rw [if_pos h4, Conn.nextClose, Conn.state_nextState _ _ hs]
  · obtain ⟨body, hbody, hlt⟩ := split_frame h hrest h4
    have hmore := afterRecv_partial hv.rbuf_valid (hc.trans hbody) hlen hlt
    refine ⟨c1.nextRecv, by simp [receive, hr, hmore], ?_, ?_, ?_, ?_⟩
    · exact hv.nextState _
    · simpa [Conn.nextRecv] using hc
    · simpa [Conn.nextRecv] using hf.trans hw
    · rw [if_neg (by omega), Conn.nextRecv, Conn.state_nextState _ _ hs]

@[simp] theorem receiveAll_concat (c : Conn) (pre : List (List UInt8)) (chunk : List UInt8) :
    receiveAll junk c (pre ++ [chunk]) = (receiveAll junk c pre).bind (receive junk · chunk) := by
  simp [receiveAll, List.foldlM_append]

theorem receiveAll_partial (junk : ℕ → UInt8) (hc : Ready c) (pre : List (List UInt8))
    {r : List UInt8} (h : pre.flatten ++ r = frame msg) (hrest : r ≠ [])
    (hlen : msg.length < 2 ^ 31)
    (hpre : pre ≠ []) :
    ∃ c', receiveAll junk c pre = some c' ∧ Partial c' pre.flatten := by
  induction pre using List.reverseRec generalizing r with
  | nil => exact absurd rfl hpre
  | append_singleton pre chunk ih =>
    rw [List.flatten_append, List.flatten_singleton] at h ⊢
    by_cases hnil : pre = []
    · subst hnil
      have := receive_partial junk chunk hc.wf hc.waiting
        (by simpa [hc.empty] using h) hrest hlen
      simpa [receiveAll, hc.empty] using this
    · obtain ⟨c1, hr, hp⟩ := ih (r := chunk ++ r) (by simpa using h)
        (by simp [hrest]) hnil
      have := receive_partial junk chunk hp.wf hp.waiting
        (by simpa [hp.content] using h) hrest hlen
      simpa [hr, hp.content] using this

theorem receiveAll_full (hc : Ready c) {pre : List (List UInt8)} (hchunk : chunk ≠ [])
    (h : (pre ++ [chunk]).flatten = frame msg) (hlen : msg.length < 2 ^ 31) :
    ∃ c', receiveAll junk c (pre ++ [chunk]) = some c' ∧
      c'.evtArg.isMsgFullyReceived = true ∧ c'.rbuf.content = msg ∧
      c'.rbuf.ptr = msg.length := by
  rw [List.flatten_append, List.flatten_singleton] at h
  obtain ⟨c1, hr, hv, hcont⟩ : ∃ c1, receiveAll junk c pre = some c1 ∧ c1.Wf ∧
      c1.rbuf.content = pre.flatten := by
    by_cases hnil : pre = []
    · exact ⟨c, by simp [receiveAll, hnil], hc.wf, by simp [hc.empty, hnil]⟩
    · obtain ⟨c1, hr, hp⟩ := receiveAll_partial junk hc _ h hchunk hlen hnil
      exact ⟨c1, hr, hp.wf, hp.content⟩
  have hv' : Conn.Wf { c1 with state := .none } := ⟨hv.1, hv.2, hv.3, hv.4⟩
  obtain ⟨c2, hr2, hv2, hc2, -⟩ := hv'.recv junk chunk
  have hfull : c2.rbuf.content = frame msg := by
    rw [hc2, ← h, ← hcont]
  simpa [hr, receive, hr2] using afterRecv_full hv2.rbuf_valid hfull hlen

/-- A framed message is delivered exactly when the first chunk brings the four
bytes of the length; with fewer, the connection is told to close. -/
theorem delivers_iff (hc : Ready c) (hne : ∀ chunk ∈ chunks, chunk ≠ [])
    (h : chunks.flatten = frame msg) (hlen : msg.length < 2 ^ 31) :
    Delivers junk c chunks msg ↔ 4 ≤ (chunks.headD []).length := by
  cases chunks with
  | nil =>
    have := congrArg List.length h
    simp at this
    omega
  | cons first more =>
    rw [List.headD_cons]
    constructor
    · intro hd
      by_contra hshort
      have hmore : more ≠ [] := by
        rintro rfl
        have := congrArg List.length h
        simp at this
        omega
      have hrest : more.flatten ≠ [] := by
        cases more with
        | nil => exact absurd rfl hmore
        | cons next more => simp [hne next (by simp)]
      obtain ⟨c1, hr1, hp⟩ := receiveAll_partial junk hc [first]
        (by simpa using h) hrest hlen (by simp)
      obtain ⟨c2, hr2, hs, -⟩ := hd.asks [first] more rfl (by simp) hmore
      rw [hr1, Option.some.injEq] at hr2
      subst hr2
      rw [hp.state, if_pos (by simpa using hshort)] at hs
      exact absurd hs (by decide)
    · intro h4
      constructor
      · intro pre post hsplit hpre hpost
        have hrest : post.flatten ≠ [] := by
          cases post with
          | nil => exact absurd rfl hpost
          | cons next post => simp [hne next (by simp [hsplit])]
        have hlong : ¬ pre.flatten.length < 4 := by
          cases pre with
          | nil => exact absurd rfl hpre
          | cons head pre =>
            obtain ⟨rfl, -⟩ := List.cons.inj hsplit
            simp
            omega
        obtain ⟨c', hr, hp⟩ := receiveAll_partial junk hc pre
          (by rw [← List.flatten_append, ← hsplit, h]) hrest hlen hpre
        exact ⟨c', hr, by rw [hp.state, if_neg hlong], hp.waiting⟩
      · obtain ⟨pre, last, hlast⟩ := List.eq_nil_or_concat (first :: more) |>.resolve_left (by simp)
        rw [List.concat_eq_append] at hlast
        rw [hlast] at hne h ⊢
        exact receiveAll_full hc (hne last (by simp)) h hlen

/-- From the sender's buffer to the receiver's: the handler frames the message, and
every way of cutting the framed bytes into chunks delivers it exactly when the four
bytes of the length come in the first one. -/
theorem framed_message_delivered_iff (junk : ℕ → UInt8) (s c : Conn) (hs : s.Wf)
    (hlen : s.wbuf.ptr < 2 ^ 31) (hc : Ready c) :
    ∃ s', beforeSendLengthPrefixedMsg junk s = some s' ∧
      ∀ chunks, (∀ chunk ∈ chunks, chunk ≠ []) → chunks.flatten = s'.wbuf.content →
        (Delivers junk c chunks s.wbuf.content ↔ 4 ≤ (chunks.headD []).length) := by
  obtain ⟨s', hsend, hcont⟩ := beforeSend_spec junk hs.wbuf_valid
    (Nat.le_trans (by decide : 4 ≤ bufSize) hs.wbuf_size) hlen
  refine ⟨s', hsend, fun chunks hne hsplit => delivers_iff hc hne (hsplit.trans hcont) ?_⟩
  rwa [hs.wbuf_valid.length_content]

/-- The message `hi` in three chunks, with its length in the first one or cut. -/
theorem framed_message_delivered_iff_hi :
    ∃ wbuf s', (create fun _ => 0).wbuf.memcpyAppend (fun _ => 0) [104, 105] = some wbuf ∧
      beforeSendLengthPrefixedMsg (fun _ => 0) { create (fun _ => 0) with wbuf } = some s' ∧
      s'.wbuf.content = [0, 0, 0, 2, 104, 105] ∧
      Delivers (fun _ => 0) (create fun _ => 0) [[0, 0, 0, 2], [104], [105]] [104, 105] ∧
      ¬ Delivers (fun _ => 0) (create fun _ => 0) [[0, 0, 0], [2, 104], [105]] [104, 105] := by
  have hcreate := Conn.create_wf fun _ => 0
  obtain ⟨wbuf, happend, hvalid, hmsg, hptr, hsize⟩ :=
    Buf.memcpyAppend_spec (fun _ => 0) hcreate.wbuf_valid [104, 105]
  have hmsg : wbuf.content = [104, 105] := hmsg
  have hlen : wbuf.ptr < 2 ^ 31 := by
    rw [← hvalid.length_content, hmsg]
    decide
  have hwf : Conn.Wf { create (fun _ => 0) with wbuf } :=
    ⟨hcreate.rbuf_valid, hvalid, hcreate.rbuf_size, Nat.le_trans hcreate.wbuf_size hsize⟩
  obtain ⟨s', hsend, hdelivers⟩ :=
    framed_message_delivered_iff (fun _ => 0) _ (create fun _ => 0) hwf hlen (create_ready _)
  obtain ⟨s₁, hsend₁, hframe⟩ :=
    beforeSend_spec (fun _ => 0) hvalid (Nat.le_trans (by decide) hwf.wbuf_size) hlen
  obtain rfl := Option.some.inj (hsend₁.symm.trans hsend)
  rw [hmsg] at hframe hdelivers
  have hframe : s₁.wbuf.content = [0, 0, 0, 2, 104, 105] := hframe
  rw [hframe] at hdelivers
  refine ⟨wbuf, s₁, happend, hsend, hframe, (hdelivers _ (by decide) rfl).mpr (by decide),
    fun h => ?_⟩
  exact absurd ((hdelivers _ (by decide) rfl).mp h) (by decide)

/-- The message `hi`, whose length is cut after its first byte. -/
theorem not_delivers_cut_length :
    [[0], [0, 0, 2, 104, 105]].flatten = frame [104, 105] ∧
      ¬ Delivers (fun _ => 0) (create fun _ => 0) [[0], [0, 0, 2, 104, 105]] [104, 105] := by
  have hsplit : [[0], [0, 0, 2, 104, 105]].flatten = frame [104, 105] := by decide
  refine ⟨hsplit, fun h => ?_⟩
  have := (delivers_iff (create_ready _) (by decide) hsplit (by decide)).mp h
  exact absurd this (by decide)

end Libuo.TcpFraming
