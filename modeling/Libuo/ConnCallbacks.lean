import Libuo.CallbackComposition
import Libuo.ConnChains

/-!
# The callback of a connection

The functions that drive a connection find it at the bottom of the stack of their callback. The
handlers of an event are put behind the functions that are left, and their items below those that
are there. A receive hands over its event record, its error code and its length on the same stack.

The operations on a callback have the names of the source without `uo_cb_`.
-/

namespace Libuo.ConnCallbacks
open Callbacks TcpConn
open ConnChains (Evt)

/-- The connection, the record of an event for `n` bytes, a number that has been cast to a pointer,
or an item of a handler. -/
inductive Item where
  | conn
  | epevt (n : ℕ)
  | value (n : ℕ)
  | own (i : ℕ)
  deriving DecidableEq

/-- The functions of the handlers, `uo_tcp_conn_advance`, `uo_tcp_conn_before_recv` and so on, and
`uo_io_execute_io`. -/
inductive Func where
  | handler (evt : Evt)
  | advance | beforeRecv | executeIo | recv | send | afterSend | close | afterClose
  deriving DecidableEq

abbrev Cb := Contents Item Func

def stackPush (cb : Cb) (item : Item) : Cb := { cb with items := cb.items ++ [item] }

def stackPop (cb : Cb) : Option (Item × Cb) :=
  cb.items.getLast?.map fun item => (item, { cb with items := cb.items.dropLast })

/-- `uo_cb_stack_index(cb, 0)`. -/
def stackIndex0 (cb : Cb) : Option Item := cb.items.head?

def prependFunc (cb : Cb) (f : Func) : Cb := { cb with funcs := f :: cb.funcs }

def appendFunc (cb : Cb) (f : Func) : Cb := { cb with funcs := cb.funcs ++ [f] }

/-- These are the effects on the callbacks in the heap. -/
theorem op_after (m : ℕ → Option Cb) (t c b : ℕ) (C B : Cb) (hc : m c = some C) (hb : m b = some B)
    (item : Item) (f : Func) :
    Op.after m (.stackPush c item) c = some (stackPush C item) ∧
      Op.after m (.stackPop c) c = some ((stackPop C).elim C Prod.snd) ∧
      Op.after m (.prependFunc t c f) c = some (prependFunc C f) ∧
      Op.after m (.appendFunc t c f) c = some (appendFunc C f) ∧
      Op.after m (.appendCb t c b) c = some (C ++ B) := by
  refine ⟨by simp [Op.after, hc, stackPush], ?_, by simp [Op.after, hc, prependFunc],
    by simp [Op.after, hc, appendFunc], by simp [Op.after, hc, hb]⟩
  rw [Op.after, Function.update_self, hc, stackPop]
  cases hlast : C.items.getLast? with
  | some item => rfl
  | none =>
    rw [List.getLast?_eq_none_iff] at hlast
    obtain ⟨items, funcs⟩ := C
    subst hlast
    rfl

/-- `uo_tcp_conn_evt_handlers`: the items of each handler, and the number of its functions. -/
structure Handlers where
  items : Evt → List Item
  funcs : Evt → ℕ

def Handlers.cb (H : Handlers) (evt : Evt) : Cb :=
  ⟨H.items evt, List.replicate (H.funcs evt) (.handler evt)⟩

def errNone : ℕ := 0

def errUnknown : ℕ := 1

/-- An error code and a length of 0 for `uo_tcp_conn_recv`. -/
def pushError (cb : Cb) (code : ℕ) : Cb := stackPush (stackPush cb (.value code)) (.value 0)

/-- `uo_io_read_async`, on Linux, when `epoll_ctl` has accepted the socket or not, and whether the
callback is left to the thread that waits for events. Otherwise it is queued. -/
def readAsync (cb : Cb) (len : ℕ) (accepted : Bool) : Cb × Bool :=
  if len = 0 then (pushError cb errNone, false)
  else
    let cb := stackPush cb (.epevt len)
    if accepted then (cb, true) else (pushError cb errUnknown, false)

/-- `uo_io_execute_io`, with what `read` gives: the bytes, or nothing when it fails. The record is
the one that has been registered, so that its events are those of a read. -/
def executeIo (conn : Conn) (cb : Cb) (r : Option (List UInt8)) : Option (Conn × Cb) :=
  match stackPop cb with
  | some (.epevt len, cb) =>
    match r with
    | none => some (conn, pushError cb errUnknown)
    | some [] => some (conn, pushError cb errNone)
    | some bytes =>
      if bytes.length ≤ len then
        (conn.rbuf.store conn.rbuf.ptr bytes).map fun rbuf =>
          ({ conn with rbuf }, stackPush cb (.value bytes.length))
      else none
  | _ => none

/-- The result is taken from the stack by `uo_tcp_conn_recv`. -/
def consume (cb : Cb) : Option (ℕ × Cb) :=
  match stackPop cb with
  | some (.value len, cb) =>
    if len = 0 then (stackPop cb).map fun r => (0, r.2) else some (len, cb)
  | _ => none

/-- A receive as a whole, with the length that is handed over. -/
def receive (conn : Conn) (cb : Cb) (len : ℕ) (accepted : Bool) (r : Option (List UInt8)) :
    Option (ℕ × Cb) :=
  match readAsync cb len accepted with
  | (cb, false) => consume cb
  | (cb, true) => (executeIo conn cb r).bind fun x => consume x.2

variable {conn : Conn} {cb cb' : Cb} {len : ℕ} {accepted : Bool} {r : Option (List UInt8)}

@[simp] theorem stackPop_push (cb : Cb) (item : Item) :
    stackPop (stackPush cb item) = some (item, cb) := by
  simp [stackPop, stackPush]

@[simp] theorem consume_pushError (cb : Cb) (code : ℕ) :
    consume (pushError cb code) = some (0, cb) := by
  rw [consume, pushError, stackPop_push]
  simp only [if_true, stackPop_push]
  rfl

theorem consume_value (cb : Cb) (hlen : len ≠ 0) :
    consume (stackPush cb (.value len)) = some (len, cb) := by
  rw [consume, stackPop_push]
  exact if_neg hlen

/-- What `read` may give for a buffer with room for `len` bytes. -/
def Reads (conn : Conn) (len : ℕ) (r : Option (List UInt8)) : Prop :=
  ∀ bytes, r = some bytes →
    bytes.length ≤ len ∧ conn.rbuf.ptr + bytes.length ≤ conn.rbuf.getSize

theorem executeIo_push (hr : Reads conn len r) : ∃ conn' n cb', consume cb' = some (n, cb) ∧
    executeIo conn (stackPush cb (.epevt len)) r = some (conn', cb') := by
  rw [executeIo, stackPop_push]
  cases r with
  | none => exact ⟨conn, 0, _, consume_pushError cb errUnknown, rfl⟩
  | some bytes =>
    cases bytes with
    | nil => exact ⟨conn, 0, _, consume_pushError cb errNone, rfl⟩
    | cons b bytes =>
      obtain ⟨hle, hroom⟩ := hr _ rfl
      obtain ⟨rbuf, hstore⟩ : ∃ rbuf, conn.rbuf.store conn.rbuf.ptr (b :: bytes) = some rbuf :=
        ⟨_, if_pos hroom⟩
      have hlen : (b :: bytes).length ≠ 0 := by simp
      refine ⟨{ conn with rbuf }, _, _, consume_value cb hlen, ?_⟩
      simp only
      rw [if_pos hle, hstore]
      rfl

/-- The stack that a receive leaves is the one that it has found. -/
def StackKept (conn : Conn) (cb : Cb) (len : ℕ) (accepted : Bool) (r : Option (List UInt8)) :
    Prop :=
  ∃ n cb', receive conn cb len accepted r = some (n, cb') ∧ cb'.items = cb.items

/-- A receive keeps the stack if and only if the buffer is empty or the registration has been
accepted: otherwise the record of the event is left on the stack. -/
theorem stackKept_iff (cb : Cb) (accepted : Bool) (hr : Reads conn len r) :
    StackKept conn cb len accepted r ↔ len = 0 ∨ accepted = true := by
  rw [StackKept, receive, readAsync]
  by_cases hlen : len = 0
  · simp only [if_pos hlen, consume_pushError]
    exact ⟨fun _ => .inl hlen, fun _ => ⟨0, cb, rfl, rfl⟩⟩
  · simp only [if_neg hlen]
    cases accepted with
    | true =>
      obtain ⟨conn', n, cb', hconsume, hexecute⟩ := @executeIo_push _ cb _ _ hr
      refine ⟨fun _ => .inr rfl, fun _ => ⟨n, cb, ?_, rfl⟩⟩
      simp only [if_true, hexecute, Option.bind_some, hconsume]
    | false =>
      refine ⟨fun hkept => ?_, fun h => by simp [hlen] at h⟩
      obtain ⟨n, cb', hreceive, hitems⟩ := hkept
      simp only [Bool.false_eq_true, if_false, consume_pushError, Option.some.injEq,
        Prod.mk.injEq] at hreceive
      rw [← hreceive.2, stackPush] at hitems
      have hlength := congrArg List.length hitems
      simp at hlength

/-- A new connection, of which four bytes are read. -/
theorem stackKept_iff_read : StackKept (create fun _ => 0) ⟨[.conn], []⟩ 512 true
    (some [1, 2, 3, 4]) :=
  (stackKept_iff ⟨[.conn], []⟩ true fun bytes hbytes => by
    have hsize : (create fun _ => 0).rbuf.getSize = bufSize := by
      simp [create, Buf.alloc, Buf.getSize]
    obtain rfl := Option.some.inj hbytes
    rw [hsize]
    decide).mpr (.inr rfl)

/-- The registration of a new connection is refused. -/
theorem not_stackKept_refused : ¬ StackKept (create fun _ => 0) ⟨[.conn], []⟩ 512 false none := by
  rintro ⟨n, cb', hreceive, hitems⟩
  have hrecord : receive (create fun _ => 0) ⟨[.conn], []⟩ 512 false none =
      some (0, ⟨[.conn, .epevt 512], []⟩) := rfl
  rw [hrecord, Option.some.injEq, Prod.mk.injEq] at hreceive
  rw [← hreceive.2] at hitems
  exact absurd hitems (by decide)

end Libuo.ConnCallbacks
