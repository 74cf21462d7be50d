import Libuo.ConnCallbacks

/-!
# Sending

The functions of a connection as steps of its callback, and what becomes of the bytes of a send. A
write to the socket may take a part of them, or fail. After a failed write the error code of an
asynchronous operation is taken from the stack, although there is none, and nothing advances the
connection any more.

The functions have the names of the source without `uo_tcp_conn_`.
-/

namespace Libuo.ConnSends
open Callbacks TcpConn ConnCallbacks
open ConnChains (Evt)

/-- `uo_io_write`, with what `write` gives; -1 is `none`. -/
def ioWrite (r : Option ℕ) : ℕ := r.getD 0

/-- `while (len)`: the bytes that the socket takes, and whether all have been written. -/
def sendLoop : List UInt8 → List (Option ℕ) → Option (List UInt8 × Bool)
  | [], _ => some ([], true)
  | _, [] => none
  | b :: l, r :: results =>
    let wlen := ioWrite r
    if wlen = 0 then some ([], false)
    else if wlen ≤ (b :: l).length then
      (sendLoop ((b :: l).drop wlen) results).map fun x => ((b :: l).take wlen ++ x.1, x.2)
    else none

structure Machine where
  conn : Conn
  cb : Cb

def send (H : Handlers) (conn : Conn) (cb : Cb) (results : List (Option ℕ)) :
    Option (List UInt8 × Bool × Machine) :=
  (sendLoop conn.wbuf.content results).bind fun (handed, done) =>
    if done then
      some (handed, done,
        ⟨conn, appendFunc (appendFunc (cb ++ H.cb .afterSend) .afterSend) .advance⟩)
    else (stackPop cb).map fun r => (handed, done, ⟨conn.nextClose, r.2⟩)

/-- What comes from outside when a function runs: the connection as a handler leaves it, with
functions that the handler puts first in the list, the code that another thread stores between the
two steps of `uo_tcp_conn_advance`, whether `epoll_ctl` accepts, and what the socket gives. -/
inductive Input where
  | none
  | handler (conn : Conn) (prepended : ℕ)
  | stored (state : Option State)
  | register (accepted : Bool)
  | read (r : Option (List UInt8))
  | write (results : List (Option ℕ))

/-- The second exchange of `uo_tcp_conn_advance`, which fails when there is a new code. -/
def settle (conn : Conn) (cb : Cb) : Option State → Machine
  | none => ⟨{ conn with state := .idle }, cb⟩
  | some state => ⟨{ conn with state }, appendFunc cb .advance⟩

def advance (H : Handlers) (conn : Conn) (cb : Cb) (stored : Option State) : Machine :=
  match conn.state with
  | .recv => ⟨{ conn with state := .none }, appendFunc (cb ++ H.cb .beforeRecv) .beforeRecv⟩
  | .send => ⟨{ conn with state := .none }, appendFunc (cb ++ H.cb .beforeSend) .send⟩
  | .close => ⟨{ conn with state := .none }, appendFunc (cb ++ H.cb .beforeClose) .close⟩
  | .none => settle conn cb stored
  | .idle => ⟨{ conn with state := .none }, cb⟩

/-- `uo_tcp_conn_before_recv`. When the socket is ready, the waiting thread puts
`uo_io_execute_io` first. -/
def beforeRecv (junk : ℕ → UInt8) (conn : Conn) (cb : Cb) (accepted : Bool) : Machine :=
  let rbuf := if conn.rbuf.getLenAfterPtr = 0 then conn.rbuf.realloc2x junk else conn.rbuf
  match readAsync (prependFunc cb .recv) rbuf.getLenAfterPtr.toNat accepted with
  | (cb, false) => ⟨{ conn with rbuf }, cb⟩
  | (cb, true) => ⟨{ conn with rbuf }, prependFunc cb .executeIo⟩

def recv (H : Handlers) (conn : Conn) (cb : Cb) : Option Machine :=
  (consume cb).map fun (len, cb) =>
    if len = 0 then ⟨conn.nextClose, appendFunc cb .advance⟩
    else ⟨{ conn with rbuf := conn.rbuf.setPtrRel len, evtArg.lastRecvLen := len },
      appendFunc (cb ++ H.cb .afterRecv) .advance⟩

def runFunc (H : Handlers) (junk : ℕ → UInt8) (conn : Conn) (cb : Cb) :
    Func → Input → Option Machine
  | .handler evt, .handler conn' n =>
    some ⟨conn', { cb with funcs := List.replicate n (.handler evt) ++ cb.funcs }⟩
  | .advance, .stored state => some (advance H conn cb state)
  | .beforeRecv, .register accepted => some (beforeRecv junk conn cb accepted)
  | .executeIo, .read r => (executeIo conn cb r).map fun (conn, cb) => ⟨conn, cb⟩
  | .recv, .none => recv H conn cb
  | .send, .write results => (send H conn cb results).map fun r => r.2.2
  | .afterSend, .none =>
    some ⟨{ conn with
      rbuf := conn.rbuf.setPtrAbs 0
      wbuf := conn.wbuf.setPtrAbs 0
      evtArg := ⟨0, false⟩ }, cb⟩
  | .close, .none => some ⟨conn, appendFunc (cb ++ H.cb .afterClose) .afterClose⟩
  | .afterClose, .none => some ⟨conn, cb⟩
  | _, _ => none

/-- `uo_cb_invoke`, which ends the callback when there is no function left. -/
def step (H : Handlers) (junk : ℕ → UInt8) (m : Machine) (x : Input) : Option Machine :=
  match m.cb.funcs with
  | [] => none
  | f :: funcs => runFunc H junk m.conn { m.cb with funcs } f x

/-- The results of all writes of these bytes: each takes some of them, up to one that fails. -/
inductive Answers : List UInt8 → List (Option ℕ) → Prop
  | written : Answers [] []
  | failed {l : List UInt8} {r : Option ℕ} (hl : l ≠ []) (hr : ioWrite r = 0) : Answers l [r]
  | took {l : List UInt8} {n : ℕ} {results : List (Option ℕ)} (hpos : 0 < n) (hle : n ≤ l.length)
    (h : Answers (l.drop n) results) : Answers l (some n :: results)

variable {l : List UInt8} {results : List (Option ℕ)} {H : Handlers} {conn : Conn} {cb : Cb}
  {junk : ℕ → UInt8} {m m' : Machine} {f : Func}

theorem Answers.sendLoop (h : Answers l results) : ∃ handed done,
    ConnSends.sendLoop l results = some (handed, done) ∧ (done = true → handed = l) ∧
      (done = true ↔ ∀ r ∈ results, ioWrite r ≠ 0) := by
  induction h with
  | written => exact ⟨[], true, rfl, fun _ => rfl, by simp⟩
  | @failed l r hl hr =>
    obtain ⟨b, l, rfl⟩ := List.exists_cons_of_ne_nil hl
    refine ⟨[], false, ?_, nofun, by simp [hr]⟩
    rw [ConnSends.sendLoop]
    exact if_pos hr
  | @took l n results hpos hle h ih =>
    obtain ⟨handed, done, hloop, hall, hiff⟩ := ih
    obtain ⟨b, l, rfl⟩ := List.exists_cons_of_length_pos (Nat.lt_of_lt_of_le hpos hle)
    have hne : ioWrite (some n) ≠ 0 := Nat.ne_of_gt hpos
    refine ⟨(b :: l).take n ++ handed, done, ?_, fun hdone => ?_, ?_⟩
    · rw [ConnSends.sendLoop]
      simp only [if_neg hne]
      change (if n ≤ (b :: l).length then _ else _) = _
      rw [if_pos hle]
      change (ConnSends.sendLoop ((b :: l).drop n) results).map _ = _
      rw [hloop]
      rfl
    · rw [hall hdone, List.take_append_drop]
    · rw [hiff]
      simp [hne]

/-- Handlers leave the connection as it is, and no other thread takes part. -/
def Quiet (conn : Conn) : Input → Prop
  | .handler conn' n => conn' = conn ∧ n = 0
  | .stored state => state = none
  | _ => True

/-- These functions are run one after the other, each with this item at the bottom of the stack. -/
inductive Ran (H : Handlers) (junk : ℕ → UInt8) :
    Machine → List (Func × Option Item) → Machine → Prop
  | nil (m : Machine) : Ran H junk m [] m
  | cons {m m' m'' : Machine} {f : Func} {funcs : List Func} {x : Input}
    {ran : List (Func × Option Item)} (hf : m.cb.funcs = f :: funcs) (hx : Quiet m.conn x)
    (hs : step H junk m x = some m') (h : Ran H junk m' ran m'') :
    Ran H junk m ((f, stackIndex0 m.cb) :: ran) m''

def isClosing : Func → Bool
  | .handler .beforeClose | .close | .handler .afterClose | .afterClose => true
  | _ => false

/-- The handlers before the close, the close, the handlers after it and the destruction, each with
the connection at the bottom of the stack. -/
def closeSequence (H : Handlers) : List (Func × Option Item) :=
  ((H.cb .beforeClose).funcs ++ Func.close :: ((H.cb .afterClose).funcs ++ [Func.afterClose])).map
    fun f => (f, some .conn)

/-- No write fails, and the socket takes the content of the buffer before the handlers after the
send are run; or a write fails, and the functions of the close are run. -/
def Delivers (H : Handlers) (junk : ℕ → UInt8) (conn : Conn) (cb : Cb)
    (results : List (Option ℕ)) : Prop :=
  ∃ handed done m, send H conn cb results = some (handed, done, m) ∧
    ((∀ r ∈ results, ioWrite r ≠ 0) → handed = conn.wbuf.content ∧
      ∃ ran m', Ran H junk m ran m' ∧ ran.map Prod.fst = cb.funcs ++ (H.cb .afterSend).funcs) ∧
    ((∃ r ∈ results, ioWrite r = 0) → ∃ ran m', Ran H junk m ran m' ∧
      ran.filter (fun x => isClosing x.1) = closeSequence H)

variable {ran : List (Func × Option Item)} {fs rest : List Func}

theorem ran_handlers (hfs : ∀ f ∈ fs, ∃ evt, f = .handler evt) (hm : m.cb.funcs = fs ++ rest) :
    ∃ ran m', Ran H junk m ran m' ∧ ran.map Prod.fst = fs ∧ m'.cb.funcs = rest := by
  induction fs generalizing m with
  | nil => exact ⟨[], m, .nil m, rfl, hm⟩
  | cons f fs ih =>
    obtain ⟨evt, rfl⟩ := hfs f (by simp)
    obtain ⟨ran, m', hran, hmap, hrest⟩ := ih (m := ⟨m.conn, { m.cb with funcs := fs ++ rest }⟩)
      (fun f hf => hfs f (List.mem_cons_of_mem _ hf)) rfl
    have hstep : step H junk m (.handler m.conn 0) =
        some ⟨m.conn, { m.cb with funcs := fs ++ rest }⟩ := by
      rw [step, hm]
      rfl
    exact ⟨_, m', .cons (x := .handler m.conn 0) hm ⟨rfl, rfl⟩ hstep hran,
      by rw [List.map_cons, hmap], hrest⟩

theorem Ran.only_handlers (h : Ran H junk m ran m')
    (hm : ∀ f ∈ m.cb.funcs, ∃ evt, f = .handler evt) : ∀ x ∈ ran, ∃ evt, x.1 = .handler evt := by
  induction h with
  | nil => nofun
  | @cons m m' m'' f funcs x ran hf hx hs h ih =>
    obtain ⟨evt, rfl⟩ := hm f (by simp [hf])
    have hrest : m'.cb.funcs = funcs := by
      rw [step, hf] at hs
      cases x with
      | handler conn n =>
        obtain ⟨rfl, rfl⟩ := hx
        exact congrArg (fun m => m.cb.funcs) (Option.some.inj hs).symm
      | none | stored | register | read | write => cases hs
    intro y hy
    rcases List.mem_cons.mp hy with rfl | hy
    · exact ⟨evt, rfl⟩
    · refine ih (fun g hg => hm g ?_) y hy
      rw [hf]
      exact List.mem_cons_of_mem _ (hrest ▸ hg)

/-- A send delivers what has been written, or closes the connection, if and only if no write
fails. Behind the send there are handlers at most. -/
theorem send_delivers_iff (H : Handlers) (junk : ℕ → UInt8) (conn : Conn) (cb : Cb)
    (results : List (Option ℕ)) (hresults : Answers conn.wbuf.content results)
    (hfuncs : ∀ f ∈ cb.funcs, ∃ evt, f = .handler evt) :
    Delivers H junk conn cb results ↔ ∀ r ∈ results, ioWrite r ≠ 0 := by
  obtain ⟨handed, done, hloop, hall, hdone⟩ := hresults.sendLoop
  cases done with
  | true =>
    have hnone := hdone.mp rfl
    refine ⟨fun _ => hnone, fun _ => ?_⟩
    have hsend : send H conn cb results = some (handed, true,
        ⟨conn, appendFunc (appendFunc (cb ++ H.cb .afterSend) .afterSend) .advance⟩) := by
      rw [send, hloop]
      rfl
    refine ⟨handed, true, _, hsend, fun _ => ⟨hall rfl, ?_⟩, ?_⟩
    swap
    · rintro ⟨r, hr, hzero⟩
      exact absurd hzero (hnone r hr)
    obtain ⟨ran, m', hran, hmap, -⟩ := @ran_handlers H junk
      ⟨conn, appendFunc (appendFunc (cb ++ H.cb .afterSend) .afterSend) .advance⟩
      (cb.funcs ++ (H.cb .afterSend).funcs) [.afterSend, .advance]
      (fun f hf => (List.mem_append.mp hf).elim (hfuncs f) fun hf =>
        ⟨_, List.eq_of_mem_replicate hf⟩) (by simp [appendFunc])
    exact ⟨ran, m', hran, hmap⟩
  | false =>
    have hfails : ¬ ∀ r ∈ results, ioWrite r ≠ 0 := by
      intro h
      cases hdone.mpr h
    refine ⟨fun hdelivers => absurd ?_ hfails, fun h => absurd h hfails⟩
    obtain ⟨handed', done', m, hsend, -, hclose⟩ := hdelivers
    obtain ⟨ran, m', hran, hfilter⟩ := hclose (by simpa using hfails)
    rw [send, hloop] at hsend
    obtain ⟨⟨item, cb'⟩, hpop, hsend⟩ := Option.map_eq_some_iff.mp hsend
    obtain rfl : _ = m := (Prod.mk.inj (Prod.mk.inj hsend).2).2
    obtain ⟨last, -, hpop⟩ := Option.map_eq_some_iff.mp hpop
    obtain rfl : _ = cb' := (Prod.mk.inj hpop).2
    -- the close itself is not among the functions that are run
    have hmem : (Func.close, some Item.conn) ∈ ran.filter fun x => isClosing x.1 := by
      rw [hfilter, closeSequence]
      simp
    obtain ⟨evt, hevt⟩ := hran.only_handlers hfuncs _ (List.mem_of_mem_filter hmem)
    cases hevt

def noHandlers : Handlers := ⟨fun _ => [], fun _ => 0⟩

def threeBytes : Conn := { create (fun _ => 0) with wbuf := ⟨[1, 2, 3], 3⟩ }

/-- Three bytes are sent by two writes. -/
theorem send_delivers_iff_two :
    Delivers noHandlers (fun _ => 0) threeBytes ⟨[.conn], []⟩ [some 2, some 1] :=
  have hresults : Answers [1, 2, 3] [some 2, some 1] :=
    .took (by decide) (by decide) (.took (by decide) (by decide) .written)
  (send_delivers_iff noHandlers _ threeBytes _ _ hresults (by simp)).mpr (by decide)

/-- The second write fails, and the connection is not closed. -/
theorem not_delivers_failed :
    ¬ Delivers noHandlers (fun _ => 0) threeBytes ⟨[.conn], []⟩ [some 2, none] := by
  rintro ⟨handed, done, m, hsend, -, hclose⟩
  obtain ⟨ran, m', hran, hfilter⟩ := hclose ⟨none, by simp, rfl⟩
  have hover : m.cb.funcs = [] := by
    have hsent : send noHandlers threeBytes ⟨[.conn], []⟩ [some 2, none] =
        some ([1, 2], false, ⟨threeBytes.nextClose, ⟨[], []⟩⟩) := rfl
    cases hsent.symm.trans hsend
    rfl
  cases hran with
  | nil => cases hfilter
  | cons hf => cases hover.symm.trans hf

end Libuo.ConnSends
