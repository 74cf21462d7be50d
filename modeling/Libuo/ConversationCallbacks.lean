import Libuo.ConnRefinement
import Libuo.TcpConversation

/-!
# Conversations of callbacks

The two parties of a conversation as connections that are driven by their callbacks, with the
handlers that the flow and the length-prefixed messages register, and those of an application.
-/

namespace Libuo.ConversationCallbacks
open TcpConn TcpFraming TcpMessages TcpConversation ByteStreams ConnPrograms
open ConnChains (Evt)

/-- `uo_tcp_conn_next_recv_cb_func` and `uo_tcp_conn_next_send_cb_func`. -/
def nextCbFunc (state : State) : Effect (List Message) := fun x => some (x.1.nextState state, x.2)

variable (junk : ℕ → UInt8)

/-- The handler of the application before a send. -/
def say (a : App) : Effect (List Message) := fun x =>
  (x.1.wbuf.memcpyAppend junk (a.say x.2)).map fun wbuf => ({ x.1 with wbuf }, x.2)

/-- `uo_tcp_conn_before_send_length_prefixed_msg`. -/
def beforeSend : Effect (List Message) := fun x =>
  (beforeSendLengthPrefixedMsg junk x.1).map fun conn => (conn, x.2)

/-- `uo_tcp_conn_after_recv_length_prefixed_msg`. -/
def afterRecv : Effect (List Message) := fun x =>
  (afterRecvLengthPrefixedMsg x.1).map fun conn => (conn, x.2)

/-- The handler of the application behind a receive keeps each message that has been fully
received. -/
def keep : Effect (List Message) := fun x =>
  some (x.1, if x.1.evtArg.isMsgFullyReceived then x.2 ++ [x.1.rbuf.content] else x.2)

/-- `uo_tcp_client_set_opt_use_flow_send_recv_repeat` for the one who begins, or
`uo_tcp_server_set_opt_use_flow_recv_send_repeat`, and then
`uo_tcp_client_set_opt_use_length_prefixed_messages` or
`uo_tcp_server_set_opt_use_length_prefixed_messages`. The handlers of the application have been
registered before. -/
def program (a : App) (first : Bool) : Program (List Message) where
  items _ := []
  funcs
    | .afterOpen => [nextCbFunc (if first then .send else .recv)]
    | .beforeSend => [say junk a, beforeSend junk]
    | .afterSend => [nextCbFunc .recv]
    | .afterRecv => [afterRecv, keep, nextCbFunc .send]
    | .beforeRecv | .beforeClose | .afterClose => []

/-- A connection that is opened. -/
def start (a : App) (first : Bool) : Running (List Message) :=
  Running.opened (program junk a first) (create junk) []

/-- `a` begins. -/
def system (a b : App) : System UInt8 (Running (List Message)) (Running (List Message)) :=
  ⟨Running.party (program junk a true) junk, Running.party (program junk b false) junk⟩

/-- The callback of a connection has come to its end behind less than a length. -/
def CutShort (e : Running (List Message)) : Prop :=
  e.machine.cb.funcs = [] ∧ 0 < e.machine.conn.rbuf.content.length ∧
    e.machine.conn.rbuf.content.length < 4

variable {junk} {a b : App} {first : Bool} {c c' : Conn} {x y : Conn × List Message}
  {f : Effect (List Message)} {fs : List (Effect (List Message))} {evt : Evt}
  {e : Running (List Message)} {t t' : ConnPrograms.Endpoint (List Message)} {r w : List UInt8}

theorem respects_nextCbFunc (state : State) : Respects (nextCbFunc state) :=
  respects_of_frame fun c own rbuf => by
    rw [nextCbFunc, nextCbFunc, nextState_rbuf]
    rfl

theorem respects_say (junk : ℕ → UInt8) (a : App) : Respects (say junk a) :=
  respects_of_frame fun c own rbuf => by
    rw [say, say, Option.map_map]
    rfl

theorem respects_beforeSend (junk : ℕ → UInt8) : Respects (beforeSend junk) :=
  respects_of_frame fun c own rbuf => by
    have hframe : beforeSendLengthPrefixedMsg junk { c with rbuf } =
        (beforeSendLengthPrefixedMsg junk c).map fun conn => { conn with rbuf } := by
      simp only [beforeSendLengthPrefixedMsg, Option.bind_eq_bind, Option.map_bind,
        Function.comp_def, Option.map_some]
    rw [beforeSend, beforeSend, hframe, Option.map_map, Option.map_map]
    rfl

/-- What `uo_tcp_conn_after_recv_length_prefixed_msg` moves does not depend on what is behind the
position. -/
theorem store_content {buf : Buf} (hv : buf.Valid) {len : ℕ} (h4 : 4 ≤ len) (hlen : len ≤ buf.ptr) :
    ∃ rbuf, buf.store 0 ((buf.data.drop 4).take (len - 4)) = some rbuf ∧
      (rbuf.setPtrRel (-4)).Valid ∧ (rbuf.setPtrRel (-4)).content =
        ((buf.content.drop 4).take (len - 4) ++ buf.content.drop (len - 4)).take
          (buf.content.length - 4) := by
  have hcontent := hv.length_content
  have hle := hv.ptr_le
  have hsrc : (buf.data.drop 4).take (len - 4) = (buf.content.drop 4).take (len - 4) := by
    rw [Buf.content, List.drop_take, List.take_take]
    congr 1
    omega
  have hlength : ((buf.content.drop 4).take (len - 4)).length = len - 4 := by
    rw [List.length_take, List.length_drop, hcontent]
    omega
  rw [hsrc]
  obtain ⟨rbuf, hstore, hptr, hsize, hdata⟩ :=
    Buf.store_spec buf 0 ((buf.content.drop 4).take (len - 4)) (by rw [hlength]; omega)
  have hptr' : (rbuf.setPtrRel (-4)).ptr = buf.ptr - 4 := by
    rw [Buf.setPtrRel, hptr]
    change (_ + _ : ℤ).toNat = _
    omega
  have hbehind : (buf.data.drop (len - 4)).take (buf.ptr - 4 - (len - 4)) =
      (buf.content.drop (len - 4)).take (buf.ptr - 4 - (len - 4)) := by
    rw [Buf.content, List.drop_take, List.take_take]
    congr 1
    omega
  refine ⟨rbuf, hstore, ⟨?_, ?_⟩, ?_⟩
  · rw [Buf.getSize_setPtrRel, hsize]
    exact hv.size_pos
  · rw [Buf.getSize_setPtrRel, hsize, hptr']
    omega
  · change rbuf.data.take (rbuf.setPtrRel (-4)).ptr = _
    rw [hptr', hdata, hlength, List.take_zero, List.nil_append, Nat.zero_add, hcontent,
      List.take_append, List.take_append, hlength, hbehind]

theorem respects_afterRecv : Respects afterRecv := by
  rintro ⟨c, own⟩ ⟨c', _⟩ ⟨(h : Alike c c'), rfl⟩
  have hptr : c'.rbuf.getLenBeforePtr = c.rbuf.getLenBeforePtr := h.ptr_eq.symm
  simp only [afterRecv, afterRecvLengthPrefixedMsg, hptr]
  by_cases hlen : c.rbuf.getLenBeforePtr % 2 ^ 32 < 4
  · rw [if_pos hlen, if_pos hlen]
    exact .some ⟨h.nextState .close, rfl⟩
  · rw [if_neg hlen, if_neg hlen]
    have hle : c.rbuf.getLenBeforePtr % 2 ^ 32 ≤ c.rbuf.ptr := Nat.mod_le _ _
    have hfront : c'.rbuf.data.take 4 = c.rbuf.data.take 4 := by
      have hcontent := congrArg (List.take 4) h.content
      rw [Buf.content, Buf.content, List.take_take, List.take_take, ← h.ptr_eq,
        Nat.min_eq_left (by omega)] at hcontent
      exact hcontent.symm
    rw [hfront]
    by_cases hmore : ntohl (c.rbuf.data.take 4) > c.rbuf.getLenBeforePtr % 2 ^ 32 - 4
    · rw [if_pos hmore, if_pos hmore]
      exact .some ⟨h.nextState .recv, rfl⟩
    · rw [if_neg hmore, if_neg hmore]
      obtain ⟨rbuf, hstore, hvalid, hcontent⟩ := store_content h.valid (Nat.le_of_not_lt hlen) hle
      obtain ⟨rbuf', hstore', hvalid', hcontent'⟩ :=
        store_content h.valid' (Nat.le_of_not_lt hlen) (hle.trans h.ptr_eq.le)
      rw [hstore, hstore']
      have halike : Alike { c with rbuf := rbuf.setPtrRel (-4) }
          { c' with rbuf := rbuf'.setPtrRel (-4) } :=
        h.setRbuf (by rw [hcontent, hcontent', h.content]) hvalid hvalid'
      exact .some ⟨halike.setFlag, rfl⟩

theorem respects_keep : Respects keep := by
  rintro ⟨c, own⟩ ⟨c', _⟩ ⟨(h : Alike c c'), rfl⟩
  refine .some ⟨h, ?_⟩
  simp only [h.evtArg_eq, h.content]

theorem lawful (junk : ℕ → UInt8) (a : App) (first : Bool) : (program junk a first).Lawful where
  respects evt f hf := by
    cases evt with
    | afterOpen => exact List.mem_singleton.mp hf ▸ respects_nextCbFunc _
    | afterSend => exact List.mem_singleton.mp hf ▸ respects_nextCbFunc _
    | beforeSend =>
      rcases List.mem_pair.mp hf with rfl | rfl
      · exact respects_say junk a
      · exact respects_beforeSend junk
    | afterRecv =>
      rcases List.mem_cons.mp hf with rfl | hf
      · exact respects_afterRecv
      · rcases List.mem_pair.mp hf with rfl | rfl
        · exact respects_keep
        · exact respects_nextCbFunc _
    | beforeRecv | beforeClose | afterClose => cases hf
  bottom evt x hx := by cases hx
  keeps evt hevt f hf := by rcases hevt with rfl | rfl <;> cases hf

/-- The party that the handlers make. -/
def view (t : ConnPrograms.Endpoint (List Message)) : TcpConversation.Endpoint :=
  ⟨t.conn, t.unsent, t.own⟩

theorem act_view (junk : ℕ → UInt8) (a : App) (first : Bool)
    (t : ConnPrograms.Endpoint (List Message)) :
    TcpConversation.act junk a (view t) = ((program junk a first).act t).map view := by
  obtain ⟨conn, own, _ | _ | ⟨byte, bytes⟩⟩ := t
  · rw [view, TcpConversation.act, Program.act]
    by_cases hstate : conn.state = .send
    · simp only [hstate, guard_true, program, runs, List.foldlM_cons, List.foldlM_nil, say,
        beforeSend, Option.pure_def, Option.bind_eq_bind, Option.bind_some]
      cases conn.wbuf.memcpyAppend junk (a.say own) with
      | none => rfl
      | some wbuf =>
        simp only [Option.map_some, Option.bind_some]
        cases beforeSendLengthPrefixedMsg junk { conn with state := .none, wbuf } <;> rfl
    · simp only [hstate, guard_false, Option.bind_eq_bind]
      rfl
  · rfl
  · rfl

theorem read_view (junk : ℕ → UInt8) (a : App) (first : Bool)
    (t : ConnPrograms.Endpoint (List Message)) (chunk : List UInt8) :
    TcpConversation.read junk (view t) chunk =
      ((program junk a first).read junk t chunk).map view := by
  obtain ⟨conn, own, unsent⟩ := t
  rw [view, TcpConversation.read, Program.read]
  by_cases hunsent : unsent = none
  · by_cases hstate : conn.state = .recv
    · simp only [hunsent, hstate, guard_true, program, runs, List.foldlM_cons, List.foldlM_nil,
        afterRecv, keep, nextCbFunc, receive, Option.pure_def, Option.bind_eq_bind,
        Option.bind_some]
      cases Conn.recv junk { conn with state := .none } chunk with
      | none => rfl
      | some conn₁ =>
        simp only [Option.bind_some]
        cases afterRecvLengthPrefixedMsg conn₁ with
        | none => rfl
        | some conn₂ => simp [view, Conn.nextSend]
    · simp only [hunsent, hstate, guard_true, guard_false, Option.bind_eq_bind, Option.pure_def,
        Option.bind_some]
      rfl
  · simp only [hunsent, guard_false, Option.bind_eq_bind]
    rfl

theorem write_view (t : ConnPrograms.Endpoint (List Message)) (n : ℕ) :
    TcpConversation.write (view t) n = (Program.write t n).map fun r => (r.1, view r.2) := by
  obtain ⟨conn, own, _ | bytes⟩ := t
  · rfl
  · rw [view, TcpConversation.write, Program.write, Option.bind_some, Option.bind_some,
      Option.map_map]
    rfl

theorem views (junk : ℕ → UInt8) (a : App) (first : Bool) :
    Views ((program junk a first).party junk) (TcpConversation.party junk a) view where
  act := act_view junk a first
  write := write_view
  read := read_view junk a first

/-- Callbacks do what a party of a conversation does. -/
theorem refines_party (junk : ℕ → UInt8) (a : App) (first : Bool) :
    Refines (Running.party (program junk a first) junk) (TcpConversation.party junk a)
      (fun u => u.unsent = none ∧ u.conn.state = .recv)
      fun e u => ∃ t, Sim (program junk a first) e t ∧ u = view t :=
  (refines (lawful junk a first) junk).view (views junk a first) fun h => h

/-- Where the callback of a party is when it has read `r` and written `w`. -/
def TalksAt (junk : ℕ → UInt8) (a : App) (first : Bool) (r w : List UInt8)
    (e : Running (List Message)) : Prop :=
  ∃ u, (∃ t, Sim (program junk a first) e t ∧ u = view t) ∧ TalkAt a first r w u

theorem follows_callbacks (junk : ℕ → UInt8) (a b : App) (first : Bool) :
    Follows (Running.party (program junk a first) junk) (fun _ _ : Unit => True)
      (speech b (!first)) (speech a first) fun _ => TalksAt junk a first :=
  (follows junk a b first).refine (fun _ => trivial)
    (fun h hready c hc hp => by
      cases h with
      | receiving hlog hwf hstate hempty hflag hcontent =>
        obtain ⟨e', hread, -⟩ := read_receiving b hlog hwf hstate hempty hflag hcontent hc hp
        exact ⟨e', hread⟩
      | closing _ hstate | answering _ _ hstate =>
        rw [hstate] at hready
        cases hready.2
      | writing => cases hready.1)
    (refines_party junk a first)

theorem talksAt_start (junk : ℕ → UInt8) (a : App) (first : Bool) :
    TalksAt junk a first [] [] (start junk a first) := by
  have hruns : runs ((program junk a first).funcs .afterOpen) (create junk, []) =
      some ((create junk).nextState (if first then .send else .recv), []) := rfl
  have hsim := sim_opened (lawful junk a first) (Conn.create_wf junk).rbuf_valid hruns
  refine ⟨_, ⟨_, hsim, rfl⟩, ?_⟩
  have h := talkAt_opened junk a first
  cases first <;> exact h

/-- A handler that keeps nothing. -/
def KeepsNone (f : Effect (List Message)) : Prop := ∀ {x y}, f x = some y → y.2 = x.2

theorem runs_keepsNone (hfs : ∀ f ∈ fs, KeepsNone f) (h : runs fs x = some y) : y.2 = x.2 := by
  induction fs generalizing x with
  | nil =>
    obtain rfl := Option.some.inj h
    rfl
  | cons f fs ih =>
    rw [runs_cons] at h
    obtain ⟨z, hz, h⟩ := Option.bind_eq_some_iff.mp h
    have hbehind := ih (fun f hf => hfs f (List.mem_cons_of_mem _ hf)) h
    exact hbehind.trans (hfs f (.head _) hz)

theorem keepsNone_nextCbFunc (state : State) : KeepsNone (nextCbFunc state) := fun h => by
  obtain rfl := Option.some.inj h
  rfl

theorem keepsNone_map {α : Type} (g : Conn × List Message → Option α)
    (conn : Conn × List Message → α → Conn) :
    KeepsNone fun x => (g x).map fun z => (conn x z, x.2) := fun h => by
  obtain ⟨z, -, rfl⟩ := Option.map_eq_some_iff.mp h
  rfl

theorem keepsNone_of_ne (hevt : evt ≠ .afterRecv) :
    ∀ f ∈ (program junk a first).funcs evt, KeepsNone f := by
  intro f hf
  cases evt with
  | afterOpen | afterSend => exact List.mem_singleton.mp hf ▸ keepsNone_nextCbFunc _
  | beforeSend =>
    rcases List.mem_pair.mp hf with rfl | rfl
    · exact keepsNone_map (fun x => x.1.wbuf.memcpyAppend junk (a.say x.2))
        fun x wbuf => { x.1 with wbuf }
    · exact keepsNone_map (fun x => beforeSendLengthPrefixedMsg junk x.1) fun _ conn => conn
  | afterRecv => exact absurd rfl hevt
  | beforeRecv | beforeClose | afterClose => cases hf

/-- A message is kept at most, of which the connection knows. -/
def Later (own : List Message) (y : Conn × List Message) : Prop :=
  y.2 = own ∨ y.1.evtArg.isMsgFullyReceived = true ∧ ∃ m, y.2 = own ++ [m]

theorem Later.alike {own : List Message} (h : Later own x) (halike : AlikeOwn x y) :
    Later own y := by
  rw [Later, ← halike.2, ← halike.1.evtArg_eq]
  exact h

theorem later_keep (h : runs [keep, nextCbFunc .send] x = some y) : Later x.2 y := by
  obtain rfl := Option.some.inj h
  by_cases hflag : x.1.evtArg.isMsgFullyReceived = true
  · refine .inr ⟨?_, x.1.rbuf.content, if_pos hflag⟩
    rw [Conn.evtArg_nextState]
    exact hflag
  · exact .inl (if_neg hflag)

theorem later_runs (hfs : fs <:+ (program junk a first).funcs evt) (h : runs fs x = some y) :
    Later x.2 y := by
  by_cases hevt : evt = .afterRecv
  · subst hevt
    have hcases : fs = [afterRecv, keep, nextCbFunc .send] ∨ fs = [keep, nextCbFunc .send] ∨
        fs <:+ [nextCbFunc .send] := by
      rcases List.suffix_cons_iff.mp hfs with rfl | hfs
      · exact .inl rfl
      · rcases List.suffix_cons_iff.mp hfs with rfl | hfs
        · exact .inr (.inl rfl)
        · exact .inr (.inr hfs)
    rcases hcases with rfl | rfl | hfs
    · rw [runs_cons] at h
      obtain ⟨z, hz, h⟩ := Option.bind_eq_some_iff.mp h
      have hown : z.2 = x.2 :=
        keepsNone_map (fun x => afterRecvLengthPrefixedMsg x.1) (fun _ conn => conn) hz
      exact hown ▸ later_keep h
    · exact later_keep h
    · exact .inl (runs_keepsNone (fun f hf =>
        List.mem_singleton.mp (hfs.subset hf) ▸ keepsNone_nextCbFunc _) h)
  · exact .inl (runs_keepsNone (fun f hf => keepsNone_of_ne hevt f (hfs.subset hf)) h)

theorem own_of_rel {z : Option (Conn × List Message)} (hevt : evt ≠ .afterRecv)
    (hfs : fs <:+ (program junk a first).funcs evt) (hrel : Option.Rel AlikeOwn (runs fs x) z)
    (hz : z = some y) : y.2 = x.2 := by
  subst hz
  generalize hx : runs fs x = o at hrel
  cases hrel with
  | some halike =>
    have hown := runs_keepsNone (fun f hf => keepsNone_of_ne hevt f (hfs.subset hf)) hx
    exact halike.2.symm.trans hown

/-- A callback has kept what has been received, but for a message that it is about to keep. -/
theorem own_cases (h : Sim (program junk a first) e t)
    (hsend : t.unsent = none → t.conn.state = .send →
      ∃ t', (program junk a first).act t = some t') :
    t.own = e.own ∨ t.unsent = none ∧ Later e.own (t.conn, t.own) := by
  cases h with
  | @advancing evt fs items conn c own own' x hfs _ hruns halike =>
    exact .inr ⟨rfl, (later_runs hfs hruns).alike halike⟩
  | @received items n conn c own own' x _ _ hruns halike =>
    exact .inr ⟨rfl, (later_runs (List.suffix_refl _) hruns).alike halike⟩
  | beforeRecv hfs _ _ hruns => exact .inl (own_of_rel (by decide) hfs hruns rfl)
  | waiting _ _ _ _ hruns halike =>
    obtain rfl := Option.some.inj hruns
    exact .inl halike.2.symm
  | @beforeSend fs items conn c own own' hfs _ hstate hruns =>
    obtain ⟨t', ht⟩ := hsend rfl hstate
    rw [Program.act] at ht
    obtain ⟨_, -, ht⟩ := Option.bind_eq_some_iff.mp ht
    obtain ⟨y, hy, -⟩ := Option.bind_eq_some_iff.mp ht
    have hown := runs_keepsNone (keepsNone_of_ne (by decide)) hy
    exact .inl (hown.symm.trans (own_of_rel (by decide) hfs hruns hy))
  | sending _ _ halike => exact .inl halike.2.symm
  | afterSend hfs _ hruns => exact .inl (own_of_rel (by decide) hfs hruns rfl)
  | idle => exact .inl rfl

theorem acts (junk : ℕ → UInt8) (h : TalkAt a first r w (view t)) (hunsent : t.unsent = none)
    (hstate : t.conn.state = .send) : ∃ t', (program junk a first).act t = some t' := by
  obtain ⟨conn, own, _⟩ := t
  obtain rfl := hunsent
  have hview := act_view junk a first ⟨conn, own, none⟩
  change TalkAt a first r w ⟨conn, none, own⟩ at h
  cases h with
  | receiving _ _ hrecv =>
    rw [hrecv] at hstate
    cases hstate
  | closing _ hclose =>
    rw [hclose] at hstate
    cases hstate
  | answering hlog hwf _ hempty =>
    obtain ⟨conn', hact, -⟩ := act_send junk a own hwf hstate hempty
    obtain ⟨t', ht, -⟩ := Option.map_eq_some_iff.mp (hview.symm.trans hact)
    exact ⟨t', ht⟩

/-- What has been kept has been read, and the messages that have been written answer it. -/
theorem TalksAt.kept (h : TalksAt junk a first r w e) :
    e.own <+: messages r ∧ messages w <+: said a first e.own := by
  obtain ⟨_, ⟨t, hsim, rfl⟩, htalk⟩ := h
  have hsame : t.own = e.own → e.own <+: messages r ∧ messages w <+: said a first e.own := by
    intro hown
    have hwritten := messages_mono htalk.written
    rw [speech, messages_said, htalk.received] at hwritten
    rw [htalk.received, ← hown]
    exact ⟨List.prefix_refl _, hwritten⟩
  rcases own_cases hsim (acts junk htalk) with hown | ⟨hunsent, hown | ⟨hflag, m, hown⟩⟩
  · exact hsame hown
  · exact hsame hown
  · obtain ⟨conn, own, _⟩ := t
    obtain rfl := hunsent
    obtain rfl : own = e.own ++ [m] := hown
    change TalkAt a first r w ⟨conn, none, e.own ++ [m]⟩ at htalk
    cases htalk with
    | receiving _ _ _ _ hno =>
      rw [hno] at hflag
      cases hflag
    | closing _ _ hno =>
      rw [hno] at hflag
      cases hflag
    | answering hlog _ _ _ hsaid =>
      rw [said_concat] at hsaid
      rw [messages_log hlog, ← List.append_cancel_right hsaid, messages_said]
      exact ⟨List.prefix_append _ _, List.prefix_refl _⟩

/-- A party goes on by itself or takes what is on the way. -/
theorem TalksAt.goes {stream : List UInt8} (b : App) (h : TalksAt junk a first r w e)
    (hcut : ¬ CutShort e) (hp : r ++ stream <+: speech b (!first) w) :
    Moves (Running.party (program junk a first) junk) e ∨
      w = speech a first r ∧
        (stream ≠ [] → Takes (Running.party (program junk a first) junk) e) := by
  obtain ⟨_, ⟨t, hsim, rfl⟩, htalk⟩ := h
  by_cases hshort : TcpConversation.CutShort (view t)
  · have hclose : t.conn.state = .close := hshort.1
    have hunsent : t.unsent = none := by
      obtain ⟨conn, own, unsent⟩ := t
      change TalkAt a first r w ⟨conn, unsent, own⟩ at htalk
      cases htalk with
      | receiving | closing | answering => rfl
      | writing _ _ hnone =>
        rw [hnone] at hclose
        cases hclose
    have hidle : t.conn.state ≠ .recv ∧ t.conn.state ≠ .send := by
      rw [hclose]
      decide
    rcases hsim.ends (lawful junk a first) junk hunsent hidle with hmoves | ⟨hfuncs, hcontent⟩
    · exact .inl hmoves
    · refine absurd ⟨hfuncs, ?_⟩ hcut
      rw [hcontent]
      exact hshort.2
  · have hsim' : ∃ t', Sim (program junk a first) e t' ∧ view t = view t' := ⟨t, hsim, rfl⟩
    have hrefines := refines_party junk a first
    rcases htalk.goes junk b hshort with hmoves | ⟨hsaid, hwaits⟩
    · exact .inl (hrefines.moves hsim' hmoves)
    · exact (hrefines.goes hsim' (.inr hwaits) hp).imp_right fun htakes => ⟨hsaid, htakes⟩

theorem TalksAt.kept_said {r' w' : List UInt8} {e' : Running (List Message)}
    (h : TalksAt junk a first r w e) (h' : TalksAt junk b (!first) r' w' e') (hr : r <+: w') :
    e.own <+: said b (!first) e'.own :=
  h.kept.1.trans ((messages_mono hr).trans h'.kept.2)

/-- Connections that are driven by their callbacks converse: what the application of each side has
kept are messages that the other side says in answer to those it has kept itself, in their order and
none of them twice. Some function can be run, or some bytes can be written or read, unless a
message has been cut within its length. -/
theorem callbacks_converse {junk : ℕ → UInt8} {a b : App} {moves : List (Side × Move)}
    {l : Link UInt8 (Running (List Message)) (Running (List Message))}
    (hrun : (system junk a b).run ⟨start junk a true, start junk b false, [], []⟩ moves = some l) :
    l.left.own <+: said b false l.right.own ∧ l.right.own <+: said a true l.left.own ∧
      ((∃ side move l', (system junk a b).next l side move = some l') ∨
        CutShort l.left ∨ CutShort l.right) := by
  have hleft : Follows (system junk a b).left _ _ _ _ := follows_callbacks junk a b true
  have hright : Follows (system junk a b).right _ _ _ _ := follows_callbacks junk b a false
  have hstart : Linked (fun _ : Unit => TalksAt junk a true) (fun _ : Unit => TalksAt junk b false)
      () [] [] () [] [] ⟨start junk a true, start junk b false, [], []⟩ :=
    ⟨talksAt_start junk a true, talksAt_start junk b false, rfl, rfl⟩
  obtain ⟨_, r, w, _, r', w', hlinked⟩ :=
    hstart.run (grows_speech a true) (grows_speech b false) hleft hright hrun
  have hout := hlinked.written (grows_speech a true) hleft
  have hout' := hlinked.written' (grows_speech b false) hright
  obtain ⟨h, h', hw, hw'⟩ := hlinked
  refine ⟨h.kept_said h' (hw' ▸ List.prefix_append _ _),
    h'.kept_said h (hw ▸ List.prefix_append _ _), ?_⟩
  by_cases hcut : CutShort l.left ∨ CutShort l.right
  · exact .inr hcut
  · have hgoes := h.goes b (fun hc => hcut (.inl hc)) (hw' ▸ hout')
    have hgoes' := h'.goes a (fun hc => hcut (.inr hc)) (hw ▸ hout)
    refine .inl (exists_next_takes (hgoes.imp_right And.right) (hgoes'.imp_right And.right) ?_)
    rcases hgoes with hmoves | ⟨hsaid, -⟩
    · exact .inr (.inr (.inl hmoves))
    · rcases hgoes' with hmoves' | ⟨hsaid', -⟩
      · exact .inr (.inr (.inr hmoves'))
      · obtain ⟨u, -, htalk⟩ := h
        obtain ⟨u', -, htalk'⟩ := h'
        have hwait := not_both_wait htalk htalk' hsaid hsaid'
        by_cases htoLeft : l.toLeft = []
        · refine .inr (.inl fun htoRight => hwait ⟨?_, ?_⟩)
          · rw [hw', htoLeft, List.append_nil]
          · rw [hw, htoRight, List.append_nil]
        · exact .inl htoLeft

/-- Both callbacks wait, the first message is written, and it is received as a whole. -/
def greeting : List (Side × Move) :=
  List.replicate 5 (.left, .act) ++ List.replicate 3 (.right, .act) ++
    [(.left, .write 6), (.right, .read 6)] ++ List.replicate 8 (.right, .act)

theorem callbacks_converse_hello :
    ∃ l : Link UInt8 (Running (List Message)) (Running (List Message)),
      (system (fun _ => 0) hello hello).run
        ⟨start (fun _ => 0) hello true, start (fun _ => 0) hello false, [], []⟩ greeting = some l ∧
      l.left.own <+: said hello false l.right.own ∧ l.right.own <+: said hello true l.left.own ∧
        ((∃ side move l', (system (fun _ => 0) hello hello).next l side move = some l') ∨
          CutShort l.left ∨ CutShort l.right) := by
  have hrun : ((system (fun _ => 0) hello hello).run ⟨start (fun _ => 0) hello true,
      start (fun _ => 0) hello false, [], []⟩ greeting).isSome = true := by
    decide +kernel
  obtain ⟨l, hl⟩ := Option.isSome_iff_exists.mp hrun
  exact ⟨l, hl, callbacks_converse hl⟩

end Libuo.ConversationCallbacks
