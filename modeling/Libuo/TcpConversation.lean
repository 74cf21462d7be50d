import Libuo.ByteStreams
import Libuo.HttpKeepAlive
import Libuo.TcpMessages

/-!
# Conversations

Two parties that send each other length-prefixed messages in turns: one begins and sends the next
message behind each that it has received, the other one only answers. Their sockets take as many
bytes at a time as they like, and these arrive in chunks of any size.
-/

namespace Libuo.TcpConversation
open TcpConn TcpFraming TcpMessages ByteStreams
open HttpKeepAlive (afterSend)

abbrev Message := List UInt8

/-- The handler of `before_send` puts a message into the buffer, whose length has to be a positive
`int`. It knows the messages that have been received. -/
structure App where
  say : List Message → Message
  short : ∀ log, (say log).length < 2 ^ 31

/-- A connection, what `uo_tcp_conn_send` has yet to write while it runs, and the messages that have
been fully received. -/
structure Endpoint where
  conn : Conn
  unsent : Option (List UInt8)
  received : List Message

variable (junk : ℕ → UInt8)

/-- A connection after `uo_tcp_conn_open`: the first operation of the flow has been requested. -/
def opened (first : Bool) : Endpoint :=
  ⟨if first then (create junk).nextSend else (create junk).nextRecv, none, []⟩

/-- A pending send: the handlers of `before_send`, the last of which is
`uo_tcp_conn_before_send_length_prefixed_msg`. Or, when everything has been written, those of
`after_send`, which are `uo_tcp_conn_next_recv_cb_func` and `uo_tcp_conn_after_send`. -/
def act (a : App) (e : Endpoint) : Option Endpoint :=
  match e.unsent with
  | none => do
    guard (e.conn.state = .send)
    let wbuf ← e.conn.wbuf.memcpyAppend junk (a.say e.received)
    let conn ← beforeSendLengthPrefixedMsg junk { e.conn with state := .none, wbuf }
    some { e with conn, unsent := some conn.wbuf.content }
  | some [] => some { e with conn := afterSend e.conn.nextRecv, unsent := none }
  | some _ => none

/-- A write of `uo_tcp_conn_send`, of which the socket takes `n` bytes. -/
def write (e : Endpoint) (n : ℕ) : Option (List UInt8 × Endpoint) :=
  e.unsent.bind fun bytes => (cut bytes n).map fun c => (c.1, { e with unsent := some c.2 })

/-- A pending receive: the handlers of `after_recv`, the first of which is
`uo_tcp_conn_after_recv_length_prefixed_msg` and the last `uo_tcp_conn_next_send_cb_func`. -/
def read (e : Endpoint) (chunk : List UInt8) : Option Endpoint := do
  guard (e.unsent = none)
  guard (e.conn.state = .recv)
  let conn ← receive junk e.conn chunk
  some { e with
    conn := conn.nextSend
    received :=
      if conn.evtArg.isMsgFullyReceived then e.received ++ [conn.rbuf.content] else e.received }

def party (a : App) : Party UInt8 Endpoint := ⟨act junk a, write, read junk⟩

/-- The messages that have been sent after those of a log have been received. -/
def said (a : App) (first : Bool) (log : List Message) : List Message :=
  (if first then log.inits else log.inits.tail).map a.say

/-- What is written at most by a party that has read `r`. -/
def speech (a : App) (first : Bool) (r : List UInt8) : List UInt8 :=
  (said a first (messages r)).flatMap frame

variable {junk} {a b : App} {first : Bool} {log log' before : List Message} {e e' : Endpoint}
  {r w part chunk : List UInt8} {msg : Message} {conn conn' : Conn}

theorem length_said (a : App) (first : Bool) (log : List Message) :
    (said a first log).length = log.length + if first then 1 else 0 := by
  cases first <;> simp [said]

theorem short_said (a : App) (first : Bool) (log : List Message) :
    ∀ m ∈ said a first log, m.length < 2 ^ 32 := by
  intro m hm
  obtain ⟨l, -, rfl⟩ := List.mem_map.mp hm
  exact (a.short l).trans (by decide)

theorem inits_concat (log : List Message) (m : Message) :
    (log ++ [m]).inits = log.inits ++ [log ++ [m]] := by
  rw [List.inits_append]
  rfl

/-- A message that is received is answered with one more. -/
theorem said_concat (a : App) (first : Bool) (log : List Message) (m : Message) :
    said a first (log ++ [m]) = said a first log ++ [a.say (log ++ [m])] := by
  rw [said, said, inits_concat]
  cases first with
  | true => simp
  | false =>
    have hne : log.inits ≠ [] := by cases log <;> simp
    rw [if_neg Bool.false_ne_true, if_neg Bool.false_ne_true, List.tail_append_of_ne_nil hne,
      List.map_append, List.map_singleton]

theorem said_mono (h : log <+: log') : said a first log <+: said a first log' := by
  obtain ⟨l, rfl⟩ := h
  induction l using List.reverseRec with
  | nil => rw [List.append_nil]
  | append_singleton l m ih =>
    rw [← List.append_assoc, said_concat]
    exact ih.trans (List.prefix_append _ _)

theorem flatMap_mono {f : Message → List UInt8} (h : log <+: log') :
    log.flatMap f <+: log'.flatMap f := by
  obtain ⟨l, rfl⟩ := h
  rw [List.flatMap_append]
  exact List.prefix_append _ _

theorem grows_speech (a : App) (first : Bool) : Grows (speech a first) :=
  fun hr => flatMap_mono (said_mono (messages_mono hr))

/-- After all that has been said, the other side says at most one message more than it has said
before. -/
theorem speech_said (a b : App) (first : Bool) (log : List Message) : ∃ answers : List Message,
    speech b (!first) ((said a first log).flatMap frame) = answers.flatMap frame ∧
      answers.length = log.length + 1 ∧ ∀ m ∈ answers, m.length < 2 ^ 31 := by
  have hmessages := messages_append (short_said a first log) []
  rw [List.append_nil, show messages [] = [] from rfl, List.append_nil] at hmessages
  refine ⟨said b (!first) (said a first log), by rw [speech, hmessages], ?_, fun m hm => ?_⟩
  · rw [length_said, length_said]
    cases first <;> rfl
  · obtain ⟨l, -, rfl⟩ := List.mem_map.mp hm
    exact b.short l

theorem afterRecv_cases (hv : conn.rbuf.Valid)
    (h : afterRecvLengthPrefixedMsg conn = some conn') :
    conn' = conn.nextClose ∨ conn' = conn.nextRecv ∨
      ∃ rbuf, rbuf.Valid ∧ rbuf.getSize = conn.rbuf.getSize ∧
        conn' = { conn with rbuf := rbuf, evtArg.isMsgFullyReceived := true } := by
  simp only [afterRecvLengthPrefixedMsg] at h
  split at h
  · exact .inl (Option.some.inj h).symm
  · split at h
    · exact .inr (.inl (Option.some.inj h).symm)
    · obtain ⟨rbuf, hstore, heq⟩ := Option.bind_eq_some_iff.mp h
      obtain ⟨-, hptr, hsize⟩ := Buf.store_inv hstore
      have hpos := hv.size_pos
      have hle := hv.ptr_le
      refine .inr (.inr ⟨rbuf.setPtrRel (-4), ⟨?_, ?_⟩, hsize, (Option.some.inj heq).symm⟩)
      · rw [Buf.getSize_setPtrRel, hsize]
        exact hpos
      · rw [Buf.getSize_setPtrRel, hsize, Buf.setPtrRel, hptr]
        change (_ + _ : ℤ).toNat ≤ _
        omega

/-- Whatever a receive finds, it keeps the buffers, and it asks for nothing when it has found the
end of a message. -/
theorem receive_keeps (h : conn.Wf) (hflag : conn.evtArg.isMsgFullyReceived = false)
    (hreceive : receive junk conn chunk = some conn') : conn'.Wf ∧ conn'.wbuf = conn.wbuf ∧
      (conn'.evtArg.isMsgFullyReceived = true → conn'.state = .none) := by
  have h₀ : Conn.Wf { conn with state := .none } := ⟨h.1, h.2, h.3, h.4⟩
  obtain ⟨conn₁, hrecv, hwf, -, hwbuf, hstate, hflag₁⟩ := h₀.recv junk chunk
  have hafter : afterRecvLengthPrefixedMsg conn₁ = some conn' := by
    rw [receive, hrecv] at hreceive
    exact hreceive
  rcases afterRecv_cases hwf.rbuf_valid hafter with rfl | rfl | ⟨rbuf, hv, hsize, rfl⟩
  · refine ⟨hwf.nextState _, (Conn.wbuf_nextState _ _).trans hwbuf, fun htrue => ?_⟩
    rw [Conn.nextClose, Conn.evtArg_nextState, hflag₁, hflag] at htrue
    cases htrue
  · refine ⟨hwf.nextState _, (Conn.wbuf_nextState _ _).trans hwbuf, fun htrue => ?_⟩
    rw [Conn.nextRecv, Conn.evtArg_nextState, hflag₁, hflag] at htrue
    cases htrue
  · exact ⟨⟨hv, hwf.wbuf_valid, hsize ▸ hwf.rbuf_size, hwf.wbuf_size⟩, hwbuf, fun _ => hstate⟩

theorem receive_full (junk : ℕ → UInt8) (h : conn.Wf)
    (hframe : conn.rbuf.content ++ chunk = frame msg) (hlen : msg.length < 2 ^ 31) :
    ∃ conn', receive junk conn chunk = some conn' ∧
      conn'.evtArg.isMsgFullyReceived = true ∧ conn'.rbuf.content = msg := by
  have h₀ : Conn.Wf { conn with state := .none } := ⟨h.1, h.2, h.3, h.4⟩
  obtain ⟨conn₁, hrecv, hwf, hcontent, -⟩ := h₀.recv junk chunk
  obtain ⟨conn', hafter, hflag, hmsg, -⟩ :=
    afterRecv_full hwf.rbuf_valid (hcontent.trans hframe) hlen
  refine ⟨conn', ?_, hflag, hmsg⟩
  rw [receive, hrecv]
  exact hafter

theorem beforeSend_wf (h : conn.Wf) (hlen : conn.wbuf.ptr < 2 ^ 31)
    (hsend : beforeSendLengthPrefixedMsg junk conn = some conn') :
    conn'.Wf ∧ conn'.state = conn.state := by
  obtain ⟨w, hw⟩ : ∃ w, (if conn.wbuf.getLenAfterPtr % 2 ^ 64 < 4 then
      conn.wbuf.realloc2x junk else conn.wbuf) = w := ⟨_, rfl⟩
  have hw₁ : w.Valid ∧ w.ptr = conn.wbuf.ptr ∧ conn.wbuf.getSize ≤ w.getSize := by
    rw [← hw]
    split
    · exact ⟨h.wbuf_valid.realloc2x, rfl, by rw [Buf.getSize_realloc2x]; omega⟩
    · exact ⟨h.wbuf_valid, rfl, Nat.le_refl _⟩
  obtain ⟨hv, hptr, hsize⟩ := hw₁
  simp only [beforeSendLengthPrefixedMsg, hw] at hsend
  obtain ⟨w₁, hstore₁, hsend⟩ := Option.bind_eq_some_iff.mp hsend
  obtain ⟨w₂, hstore₂, hsend⟩ := Option.bind_eq_some_iff.mp hsend
  obtain ⟨hle, hptr₁, hsize₁⟩ := Buf.store_inv hstore₁
  obtain ⟨-, hptr₂, hsize₂⟩ := Buf.store_inv hstore₂
  obtain rfl := Option.some.inj hsend
  have hsize₃ : w₂.getSize = w.getSize := hsize₂.trans hsize₁
  have hlen₁ : (w.data.take (conn.wbuf.getLenBeforePtr % 2 ^ 32)).length = w.ptr := by
    have hle := hv.ptr_le
    rw [Buf.getSize] at hle
    rw [List.length_take, Buf.getLenBeforePtr]
    omega
  change 4 + (w.data.take (conn.wbuf.getLenBeforePtr % 2 ^ 32)).length ≤ w.getSize at hle
  rw [hlen₁] at hle
  have hpos : w₂.ptr = w.ptr + 4 := hptr₂.trans hptr₁
  have hend : w₂.ptr ≤ w₂.getSize := by omega
  have hne : 0 < w₂.getSize := by
    rw [hsize₃]
    exact hv.size_pos
  exact ⟨⟨h.rbuf_valid, ⟨hne, hend⟩, h.rbuf_size, h.wbuf_size.trans (hsize₃ ▸ hsize)⟩, rfl⟩

theorem act_send (junk : ℕ → UInt8) (a : App) (log : List Message) (h : conn.Wf)
    (hstate : conn.state = .send) (hempty : conn.wbuf.content = []) : ∃ conn',
      act junk a ⟨conn, none, log⟩ = some ⟨conn', some (frame (a.say log)), log⟩ ∧
        conn'.Wf ∧ conn'.state = .none := by
  obtain ⟨wbuf, happend, hv, hcontent, hptr, hsize⟩ :=
    Buf.memcpyAppend_spec junk h.wbuf_valid (a.say log)
  rw [hempty, List.nil_append] at hcontent
  have hpos : wbuf.ptr = (a.say log).length := by rw [← hcontent, hv.length_content]
  have hsize' : bufSize ≤ wbuf.getSize := h.wbuf_size.trans hsize
  obtain ⟨conn', hsend, hframe⟩ :=
    beforeSend_spec (c := { conn with state := .none, wbuf }) junk hv
      (Nat.le_trans (by decide : 4 ≤ bufSize) hsize') (by rw [hpos]; exact a.short log)
  have hwf : Conn.Wf { conn with state := .none, wbuf } :=
    ⟨h.rbuf_valid, hv, h.rbuf_size, hsize'⟩
  obtain ⟨hwf, hstate'⟩ := beforeSend_wf hwf (by rw [hpos]; exact a.short log) hsend
  refine ⟨conn', ?_, hwf, hstate'⟩
  simp only [act, hstate, happend, hsend, hframe, hcontent, guard_true, Option.pure_def,
    Option.bind_eq_bind, Option.bind_some]

theorem afterSend_nextRecv (h : conn.Wf) (hstate : conn.state = .none) :
    (afterSend conn.nextRecv).Wf ∧ (afterSend conn.nextRecv).state = .recv ∧
      (afterSend conn.nextRecv).wbuf.content = [] ∧
      (afterSend conn.nextRecv).rbuf.content = [] := by
  obtain ⟨hr, hw, hrsize, hwsize⟩ := h.nextState .recv
  exact ⟨⟨⟨hr.size_pos, Nat.zero_le _⟩, ⟨hw.size_pos, Nat.zero_le _⟩, hrsize, hwsize⟩,
    Conn.state_nextState _ _ hstate, rfl, rfl⟩

/-- Where a party is when it has read `r` and written `w`. -/
inductive TalkAt (a : App) (first : Bool) : List UInt8 → List UInt8 → Endpoint → Prop
  | receiving {conn : Conn} {log : List Message} {part : List UInt8}
    (hlog : ∀ m ∈ log, m.length < 2 ^ 32) (hwf : conn.Wf) (hstate : conn.state = .recv)
    (hempty : conn.wbuf.content = []) (hflag : conn.evtArg.isMsgFullyReceived = false)
    (hcontent : conn.rbuf.content = part) (hpart : messages part = []) :
    TalkAt a first (log.flatMap frame ++ part) ((said a first log).flatMap frame)
      ⟨conn, none, log⟩
  | closing {conn : Conn} {log : List Message} {part : List UInt8}
    (hlog : ∀ m ∈ log, m.length < 2 ^ 32) (hstate : conn.state = .close)
    (hflag : conn.evtArg.isMsgFullyReceived = false) (hcontent : conn.rbuf.content = part)
    (hne : part ≠ []) (hshort : part.length < 4)
    (hpart : messages part = []) :
    TalkAt a first (log.flatMap frame ++ part) ((said a first log).flatMap frame)
      ⟨conn, none, log⟩
  | answering {conn : Conn} {log earlier : List Message}
    (hlog : ∀ m ∈ log, m.length < 2 ^ 32) (hwf : conn.Wf) (hstate : conn.state = .send)
    (hempty : conn.wbuf.content = []) (hsaid : said a first log = earlier ++ [a.say log]) :
    TalkAt a first (log.flatMap frame) (earlier.flatMap frame) ⟨conn, none, log⟩
  | writing {conn : Conn} {log : List Message} {w rest : List UInt8}
    (hlog : ∀ m ∈ log, m.length < 2 ^ 32) (hwf : conn.Wf) (hstate : conn.state = .none)
    (hw : w ++ rest = (said a first log).flatMap frame) :
    TalkAt a first (log.flatMap frame) w ⟨conn, some rest, log⟩

theorem messages_log (hlog : ∀ m ∈ log, m.length < 2 ^ 32) :
    messages (log.flatMap frame) = log := by
  have h := messages_append hlog []
  rwa [List.append_nil, show messages [] = [] from rfl, List.append_nil] at h

/-- The messages that have been received are those that have been read. -/
theorem TalkAt.received (h : TalkAt a first r w e) : messages r = e.received := by
  cases h with
  | receiving hlog _ _ _ _ _ hpart => rw [messages_append hlog, hpart, List.append_nil]
  | closing hlog _ _ _ _ _ hpart => rw [messages_append hlog, hpart, List.append_nil]
  | answering hlog => exact messages_log hlog
  | writing hlog => exact messages_log hlog

theorem TalkAt.written (h : TalkAt a first r w e) : w <+: speech a first r := by
  rw [speech, h.received]
  cases h with
  | receiving | closing => exact List.prefix_refl _
  | answering _ _ _ _ hsaid =>
    rw [hsaid, List.flatMap_append]
    exact List.prefix_append _ _
  | writing _ _ _ hw => exact hw ▸ List.prefix_append _ _

theorem TalkAt.act (h : TalkAt a first r w e) (hact : act junk a e = some e') :
    TalkAt a first r w e' := by
  cases h with
  | receiving _ _ hstate | closing _ hstate =>
    rw [TcpConversation.act, hstate] at hact
    cases hact
  | @answering conn log earlier hlog hwf hstate hempty hsaid =>
    obtain ⟨conn', hsend, hwf', hstate'⟩ := act_send junk a log hwf hstate hempty
    obtain rfl := Option.some.inj (hsend.symm.trans hact)
    refine .writing hlog hwf' hstate' ?_
    rw [hsaid, List.flatMap_append, List.flatMap_singleton]
  | @writing conn log w rest hlog hwf hstate hw =>
    cases rest with
    | cons => cases hact
    | nil =>
      obtain rfl := Option.some.inj hact
      rw [List.append_nil] at hw
      subst hw
      obtain ⟨hwf', hstate', hempty, hcontent⟩ := afterSend_nextRecv hwf hstate
      have h : TalkAt a first (log.flatMap frame ++ []) _ _ :=
        .receiving hlog hwf' hstate' hempty rfl hcontent rfl
      rwa [List.append_nil] at h

theorem TalkAt.write {n : ℕ} {bytes : List UInt8} (h : TalkAt a first r w e)
    (hwrite : TcpConversation.write e n = some (bytes, e')) :
    bytes ≠ [] ∧ TalkAt a first r (w ++ bytes) e' := by
  cases h with
  | receiving | closing | answering => cases hwrite
  | @writing conn log w rest hlog hwf hstate hw =>
    obtain ⟨⟨front, behind⟩, hcut, heq⟩ := Option.map_eq_some_iff.mp hwrite
    obtain ⟨rfl, rfl⟩ := Prod.mk.inj heq
    obtain ⟨rfl, hne⟩ := cut_eq_some hcut
    refine ⟨hne, .writing hlog hwf hstate ?_⟩
    rw [List.append_assoc, hw]

theorem next_message {answers : List Message} (hlog : ∀ m ∈ log, m.length < 2 ^ 32)
    (hanswers : ∀ m ∈ answers, m.length < 2 ^ 31) (hlen : answers.length = log.length + 1)
    (hp : log.flatMap frame ++ part <+: answers.flatMap frame) :
    ∃ m, part <+: frame m ∧ m.length < 2 ^ 31 := by
  have hmessages := messages_mono ((List.prefix_append _ _).trans hp)
  rw [messages_log hlog,
    messages_log fun m hm => (hanswers m hm).trans (by decide)] at hmessages
  obtain ⟨behind, rfl⟩ := hmessages
  rw [List.length_append, Nat.add_left_cancel_iff] at hlen
  obtain ⟨m, rfl⟩ := List.length_eq_one_iff.mp hlen
  rw [List.flatMap_append, List.prefix_append_right_inj, List.flatMap_singleton] at hp
  exact ⟨m, hp, hanswers m (List.mem_append_right _ (.head _))⟩

/-- A party that waits takes what it is given: the message ends with it, or more is waited for, or
the length has been cut. -/
theorem read_receiving (b : App) (hlog : ∀ m ∈ log, m.length < 2 ^ 32) (hwf : conn.Wf)
    (hstate : conn.state = .recv) (hempty : conn.wbuf.content = [])
    (hflag : conn.evtArg.isMsgFullyReceived = false) (hcontent : conn.rbuf.content = part)
    (hchunk : chunk ≠ [])
    (hp : log.flatMap frame ++ part ++ chunk <+:
      speech b (!first) ((said a first log).flatMap frame)) :
    ∃ e', read junk ⟨conn, none, log⟩ chunk = some e' ∧
      TalkAt a first (log.flatMap frame ++ part ++ chunk) ((said a first log).flatMap frame)
        e' := by
  obtain ⟨answers, hspeech, hlen, hshort⟩ := speech_said a b first log
  rw [hspeech, List.append_assoc] at hp
  obtain ⟨m, hm, hmlen⟩ := next_message hlog hshort hlen hp
  rw [List.append_assoc]
  have hread : ∀ (junk : ℕ → UInt8) conn', receive junk conn chunk = some conn' →
      read junk ⟨conn, none, log⟩ chunk = some ⟨conn'.nextSend, none,
        if conn'.evtArg.isMsgFullyReceived then log ++ [conn'.rbuf.content] else log⟩ := by
    intro junk conn' hreceive
    simp only [read, hstate, hreceive, guard_true, Option.pure_def, Option.bind_eq_bind,
      Option.bind_some]
  by_cases hframe : part ++ chunk = frame m
  · obtain ⟨conn', hreceive, htrue, hmsg⟩ :=
      receive_full junk hwf (hcontent.symm ▸ hframe) hmlen
    obtain ⟨hwf', hwbuf, hnone⟩ := receive_keeps hwf hflag hreceive
    refine ⟨⟨conn'.nextSend, none, log ++ [m]⟩, ?_, ?_⟩
    · rw [hread _ _ hreceive, if_pos htrue, hmsg]
    · have hlog' : ∀ m' ∈ log ++ [m], m'.length < 2 ^ 32 := by
        intro m' hm'
        rcases List.mem_append.mp hm' with hm' | hm'
        · exact hlog m' hm'
        · rw [List.mem_singleton.mp hm']
          exact hmlen.trans (by decide)
      have hend : (log ++ [m]).flatMap frame = log.flatMap frame ++ (part ++ chunk) := by
        rw [List.flatMap_append, List.flatMap_singleton, hframe]
      rw [← hend]
      refine .answering hlog' (hwf'.nextState _) (Conn.state_nextState _ _ (hnone htrue)) ?_
        (said_concat a first log m)
      rw [Conn.nextSend, Conn.wbuf_nextState, hwbuf, hempty]
  · obtain ⟨rest, hrest⟩ := hm
    have hne : rest ≠ [] := by
      rintro rfl
      rw [List.append_nil] at hrest
      exact hframe hrest
    obtain ⟨conn', hreceive, hrest₁⟩ :=
      receive_partial junk chunk hwf hflag (hcontent.symm ▸ hrest) hne hmlen
    obtain ⟨hwf', hwbuf, -⟩ := receive_keeps hwf hflag hreceive
    have hpart := messages_part ⟨rest, hrest⟩ hframe (hmlen.trans (by decide))
    have hstate' := hrest₁.state
    rw [hcontent] at hstate'
    have hkeeps : conn'.nextSend = conn' := by
      rw [Conn.nextSend, Conn.nextState, hstate']
      split_ifs <;> rfl
    refine ⟨⟨conn', none, log⟩, ?_, ?_⟩
    · rw [hread _ _ hreceive, hkeeps, if_neg (by rw [hrest₁.waiting]; exact Bool.false_ne_true)]
    · have hcontent' : conn'.rbuf.content = part ++ chunk := hcontent ▸ hrest₁.content
      by_cases hshort : (part ++ chunk).length < 4
      · rw [if_pos hshort] at hstate'
        exact .closing hlog hstate' hrest₁.waiting hcontent'
          (List.append_ne_nil_of_right_ne_nil _ hchunk) hshort hpart
      · rw [if_neg hshort] at hstate'
        exact .receiving hlog hwf' hstate' (hwbuf ▸ hempty) hrest₁.waiting hcontent' hpart

theorem TalkAt.read (h : TalkAt a first r w e) (hchunk : chunk ≠ [])
    (hp : r ++ chunk <+: speech b (!first) w)
    (hread : TcpConversation.read junk e chunk = some e') : TalkAt a first (r ++ chunk) w e' := by
  cases h with
  | receiving hlog hwf hstate hempty hflag hcontent =>
    obtain ⟨e₁, hread₁, h₁⟩ :=
      read_receiving b hlog hwf hstate hempty hflag hcontent hchunk hp
    obtain rfl := Option.some.inj (hread₁.symm.trans hread)
    exact h₁
  | closing _ hstate | answering _ _ hstate =>
    rw [TcpConversation.read, hstate] at hread
    cases hread
  | writing => cases hread

/-- A party says what it says, as long as the other one does. -/
theorem follows (junk : ℕ → UInt8) (a b : App) (first : Bool) :
    Follows (party junk a) (fun _ _ : Unit => True) (speech b (!first)) (speech a first)
      fun _ => TalkAt a first where
  written := TalkAt.written
  act h hact := ⟨(), trivial, h.act hact⟩
  write h hwrite := h.write hwrite
  read h hchunk hp hread := h.read hchunk hp hread

theorem talkAt_opened (junk : ℕ → UInt8) (a : App) (first : Bool) :
    TalkAt a first [] [] (opened junk first) := by
  have hnil : ∀ m ∈ ([] : List Message), m.length < 2 ^ 32 := nofun
  have hwf := Conn.create_wf junk
  cases first with
  | true =>
    have h : TalkAt a true (List.flatMap frame []) (List.flatMap frame []) _ :=
      .answering hnil (hwf.nextState .send) rfl rfl rfl
    exact h
  | false =>
    have h : TalkAt a false (List.flatMap frame [] ++ []) ((said a false []).flatMap frame) _ :=
      .receiving hnil (hwf.nextState .recv) rfl rfl rfl rfl rfl
    exact h

/-- A party whose last receive has brought less than a length, and which is told to close. -/
def CutShort (e : Endpoint) : Prop :=
  e.conn.state = .close ∧ 0 < e.conn.rbuf.content.length ∧ e.conn.rbuf.content.length < 4

instance (e : Endpoint) : Decidable (CutShort e) := inferInstanceAs (Decidable (_ ∧ _ ∧ _))

/-- A party goes on by itself, or it has said everything and waits. -/
theorem TalkAt.goes (junk : ℕ → UInt8) (b : App) (h : TalkAt a first r w e)
    (hcut : ¬ CutShort e) : Moves (party junk a) e ∨
      w = speech a first r ∧ Waits (party junk a) (speech b (!first) w) r e := by
  cases h with
  | @receiving conn log part hlog hwf hstate hempty hflag hcontent hpart =>
    refine .inr ⟨?_, fun c hc hp => ?_⟩
    · rw [speech, messages_append hlog, hpart, List.append_nil]
    · obtain ⟨e', hread, -⟩ := read_receiving b hlog hwf hstate hempty hflag hcontent hc hp
      exact ⟨e', hread⟩
  | closing _ hstate _ hcontent hne hshort =>
    refine absurd ⟨hstate, ?_, ?_⟩ hcut
    · rw [hcontent]
      exact List.length_pos_of_ne_nil hne
    · rw [hcontent]
      exact hshort
  | @answering conn log earlier _ hwf hstate hempty =>
    obtain ⟨conn', hact, -⟩ := act_send junk a log hwf hstate hempty
    exact .inl (.inl ⟨_, hact⟩)
  | @writing conn log w rest =>
    cases rest with
    | nil => exact .inl (.inl ⟨_, rfl⟩)
    | cons c rest =>
      obtain ⟨n, hcut⟩ := exists_cut (List.cons_ne_nil c rest)
      refine .inl (.inr ⟨n, (c :: rest, ⟨conn, some [], log⟩), ?_⟩)
      change Option.map _ (cut (c :: rest) n) = _
      rw [hcut]
      rfl

/-- `a` begins. -/
def system (junk : ℕ → UInt8) (a b : App) : System UInt8 Endpoint Endpoint :=
  ⟨party junk a, party junk b⟩

def start (junk : ℕ → UInt8) : Link UInt8 Endpoint Endpoint :=
  ⟨opened junk true, opened junk false, [], []⟩

theorem linked_start (junk : ℕ → UInt8) (a b : App) :
    Linked (fun _ : Unit => TalkAt a true) (fun _ : Unit => TalkAt b false) () [] [] () [] []
      (start junk) :=
  ⟨talkAt_opened junk a true, talkAt_opened junk b false, rfl, rfl⟩

theorem messages_said (a : App) (first : Bool) (log : List Message) :
    messages ((said a first log).flatMap frame) = said a first log :=
  messages_log (short_said a first log)

/-- What one side has received, the other one has said. -/
theorem received_said {r' w' : List UInt8} (h : TalkAt a first r w e)
    (h' : TalkAt b (!first) r' w' e') (hr : r <+: w') :
    e.received <+: said b (!first) e'.received := by
  have hmessages := messages_mono (hr.trans h'.written)
  rwa [h.received, speech, h'.received, messages_said] at hmessages

/-- The sides do not both wait with nothing on the way. -/
theorem not_both_wait {r' w' : List UInt8} (h : TalkAt a true r w e) (h' : TalkAt b false r' w' e')
    (hw : w = speech a true r) (hw' : w' = speech b false r') : ¬ (r = w' ∧ r' = w) := by
  rintro ⟨hr, hr'⟩
  have hleft : e.received = said b false e'.received := by
    rw [← h.received, hr, hw', speech, messages_said, h'.received]
  have hright : e'.received = said a true e.received := by
    rw [← h'.received, hr', hw, speech, messages_said, h.received]
  have hlen := congrArg List.length hleft
  have hlen' := congrArg List.length hright
  rw [length_said] at hlen hlen'
  simp only [Bool.false_eq_true, if_false, if_true] at hlen hlen'
  omega

/-- Each side has received, in their order and none of them twice, messages that the other side says
in answer to those it has received itself, and the conversation goes on unless a message has been
cut within its length. -/
theorem converses {junk : ℕ → UInt8} {a b : App} {moves : List (Side × Move)}
    {l : Link UInt8 Endpoint Endpoint} (hrun : (system junk a b).run (start junk) moves = some l) :
    l.left.received <+: said b false l.right.received ∧
      l.right.received <+: said a true l.left.received ∧
      ((∃ side move l', (system junk a b).next l side move = some l') ∨
        CutShort l.left ∨ CutShort l.right) := by
  have hleft : Follows (system junk a b).left _ _ _ _ := follows junk a b true
  have hright : Follows (system junk a b).right _ _ _ _ := follows junk b a false
  obtain ⟨_, r, w, _, r', w', hlinked⟩ := (linked_start junk a b).run
    (grows_speech a true) (grows_speech b false) hleft hright hrun
  have hout := hlinked.written (grows_speech a true) hleft
  have hout' := hlinked.written' (grows_speech b false) hright
  obtain ⟨h, h', hw, hw'⟩ := hlinked
  refine ⟨received_said h h' (hw' ▸ List.prefix_append _ _),
    received_said h' h (hw ▸ List.prefix_append _ _), ?_⟩
  by_cases hcut : CutShort l.left ∨ CutShort l.right
  · exact .inr hcut
  · have hgoes := h.goes junk b fun hc => hcut (.inl hc)
    have hgoes' := h'.goes junk a fun hc => hcut (.inr hc)
    refine .inl (exists_next hw hw' hout hout' (hgoes.imp_right And.right)
      (hgoes'.imp_right And.right) ?_)
    rcases hgoes with hmoves | ⟨hsaid, -⟩
    · exact .inr (.inl hmoves)
    · rcases hgoes' with hmoves' | ⟨hsaid', -⟩
      · exact .inr (.inr hmoves')
      · exact .inl (not_both_wait h h' hsaid hsaid')

def hello : App where
  say log := if log.length = 0 then [104, 105] else []
  short log := by split <;> decide

/-- The first message arrives in two chunks. -/
theorem converses_hello : ∃ l : Link UInt8 Endpoint Endpoint,
    (system (fun _ => 0) hello hello).run (start fun _ => 0) [(.left, .act), (.left, .write 6),
      (.left, .act), (.right, .read 5), (.right, .read 1)] = some l ∧
    l.left.received <+: said hello false l.right.received ∧
      l.right.received <+: said hello true l.left.received ∧
      ((∃ side move l', (system (fun _ => 0) hello hello).next l side move = some l') ∨
        CutShort l.left ∨ CutShort l.right) := by
  have hrun : ((system (fun _ => 0) hello hello).run (start fun _ => 0) [(.left, .act),
      (.left, .write 6), (.left, .act), (.right, .read 5), (.right, .read 1)]).isSome = true := by
    decide +kernel
  obtain ⟨l, hl⟩ := Option.isSome_iff_exists.mp hrun
  exact ⟨l, hl, converses hl⟩

end Libuo.TcpConversation
