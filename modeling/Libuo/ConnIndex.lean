import Libuo.ConnSends

/-!
# The bottom of the stack

Every function of a connection expects the connection at the bottom of the stack of its callback.
The items of a handler are put below all others, so that the first of them takes this place.
-/

namespace Libuo.ConnIndex
open Callbacks TcpConn ConnCallbacks ConnSends
open ConnChains (Evt)

/-- A step of the callback, or any change that other threads and other callbacks make to the
connection. -/
inductive Event where
  | other (conn : Conn)
  | turn (x : Input)

def next (H : Handlers) (junk : ℕ → UInt8) (m : Machine) : Event → Option Machine
  | .other conn => some { m with conn }
  | .turn x => step H junk m x

def run (H : Handlers) (junk : ℕ → UInt8) (m : Machine) (es : List Event) : Option Machine :=
  es.foldlM (next H junk) m

/-- `uo_tcp_conn_open`. -/
def opened (H : Handlers) (conn : Conn) : Machine :=
  ⟨conn, appendFunc (stackPush (H.cb .afterOpen) .conn) .advance⟩

/-- The callback that is made by `uo_tcp_conn_next_state`. -/
def requested (conn : Conn) : Machine := ⟨conn, ⟨[.conn], [.advance]⟩⟩

/-- Whenever a function is run, the connection is at the bottom of the stack. -/
def IndexKept (H : Handlers) : Prop :=
  ∀ junk conn m₀, m₀ = opened H conn ∨ m₀ = requested conn → ∀ es m, run H junk m₀ es = some m →
    m.cb.funcs ≠ [] → stackIndex0 m.cb = some .conn

/-- The item at the bottom of a handler, if it has any, is the connection itself. -/
def LeavesBottom (H : Handlers) : Prop := ∀ evt, ∀ x ∈ (H.items evt).head?, x = .conn

/-- The lists of functions outside of a receive. -/
inductive Proper : List Func → Prop
  | handler (evt : Evt) {funcs : List Func} (h : Proper funcs) : Proper (.handler evt :: funcs)
  | advance : Proper [.advance]
  | beforeRecv : Proper [.beforeRecv]
  | send : Proper [.send]
  | afterSend : Proper [.afterSend, .advance]
  | close : Proper [.close]
  | afterClose : Proper [.afterClose]

/-- The connection is at the bottom, with a record or a result on top during a receive; or there
is no function left. -/
inductive Good : Cb → Prop
  | ended {items : List Item} : Good ⟨items, []⟩
  | chain {items : List Item} {funcs : List Func} (h : items.head? = some .conn)
    (hf : Proper funcs) : Good ⟨items, funcs⟩
  | reading {items : List Item} {len : ℕ} (h : items.head? = some .conn) :
    Good ⟨items ++ [.epevt len], [.executeIo, .recv]⟩
  | failed {items : List Item} {code : ℕ} (h : items.head? = some .conn) :
    Good (pushError ⟨items, [.recv]⟩ code)
  | received {items : List Item} {len : ℕ} (h : items.head? = some .conn) (hlen : len ≠ 0) :
    Good (stackPush ⟨items, [.recv]⟩ (.value len))

variable {H : Handlers} {junk : ℕ → UInt8} {m m' : Machine} {items : List Item}
  {funcs rest : List Func} {evt : Evt} {x : Input} {conn : Conn} {cb : Cb} {n : ℕ}

theorem Proper.handlers (h : Proper funcs) (evt : Evt) (n : ℕ) :
    Proper (List.replicate n (.handler evt) ++ funcs) := by
  induction n with
  | zero => exact h
  | succ n ih => exact .handler evt ih

theorem head_append (h : items.head? = some .conn) (l : List Item) :
    (items ++ l).head? = some .conn := by
  rw [List.head?_append, h, Option.some_or]

theorem Good.index (h : Good cb) (hne : cb.funcs ≠ []) : stackIndex0 cb = some .conn := by
  cases h with
  | ended => exact absurd rfl hne
  | chain h => exact h
  | reading h => exact head_append h _
  | failed h => exact head_append (head_append h _) _
  | received h => exact head_append h _

/-- The handlers of an event, and the functions that follow them. -/
theorem good_append (hH : LeavesBottom H) (h : items.head? = some .conn) (evt : Evt)
    (hrest : Proper rest) : Good ⟨H.items evt ++ items, (H.cb evt).funcs ++ rest⟩ := by
  refine .chain ?_ (hrest.handlers evt _)
  rw [List.head?_append]
  cases hhead : (H.items evt).head? with
  | none => exact h
  | some x => rw [hH evt x hhead, Option.some_or]

theorem good_advance (hH : LeavesBottom H) (h : items.head? = some .conn) (conn : Conn)
    (stored : Option State) : Good (advance H conn ⟨items, []⟩ stored).cb := by
  unfold advance
  cases conn.state with
  | recv => exact good_append hH h .beforeRecv .beforeRecv
  | send => exact good_append hH h .beforeSend .send
  | close => exact good_append hH h .beforeClose .close
  | idle => exact .ended
  | none =>
    cases stored with
    | none => exact .ended
    | some state => exact .chain h .advance

theorem good_beforeRecv (h : items.head? = some .conn) (conn : Conn) (accepted : Bool) :
    Good (beforeRecv junk conn ⟨items, []⟩ accepted).cb := by
  rw [beforeRecv, readAsync]
  split_ifs
  · exact .failed h
  · exact .reading h
  · exact .failed (head_append h [.epevt _])
  · exact .failed h
  · exact .reading h
  · exact .failed (head_append h [.epevt _])

theorem good_executeIo (h : items.head? = some .conn) {len : ℕ} {r : Option (List UInt8)}
    {conn' : Conn} (hs : executeIo conn ⟨items ++ [.epevt len], [.recv]⟩ r = some (conn', cb)) :
    Good cb := by
  change executeIo conn (stackPush ⟨items, [.recv]⟩ (.epevt len)) r = some (conn', cb) at hs
  rw [executeIo, stackPop_push] at hs
  cases r with
  | none =>
    obtain ⟨-, rfl⟩ := Prod.mk.inj (Option.some.inj hs)
    exact .failed h
  | some bytes =>
    cases bytes with
    | nil =>
      obtain ⟨-, rfl⟩ := Prod.mk.inj (Option.some.inj hs)
      exact .failed h
    | cons b bytes =>
      simp only at hs
      split_ifs at hs
      obtain ⟨rbuf, -, hs⟩ := Option.map_eq_some_iff.mp hs
      obtain ⟨-, rfl⟩ := Prod.mk.inj hs
      exact .received h (by simp)

theorem good_recv (hH : LeavesBottom H) (h : items.head? = some .conn)
    (hconsume : consume cb = some (n, ⟨items, []⟩)) (hs : recv H conn cb = some m) :
    Good m.cb := by
  rw [recv, hconsume] at hs
  obtain rfl := Option.some.inj hs
  simp only
  split_ifs
  · exact .chain h .advance
  · exact good_append hH h .afterRecv .advance

theorem good_send (hH : LeavesBottom H) (h : items.head? = some .conn)
    {results : List (Option ℕ)} {r : List UInt8 × Bool × Machine}
    (hs : send H conn ⟨items, []⟩ results = some r) : Good r.2.2.cb := by
  obtain ⟨⟨handed, done⟩, -, hs⟩ := Option.bind_eq_some_iff.mp hs
  cases done with
  | true =>
    obtain rfl := Option.some.inj hs
    have hgood := good_append hH h .afterSend .afterSend
    simpa [appendFunc, Handlers.cb] using hgood
  | false =>
    obtain ⟨⟨item, cb⟩, hpop, rfl⟩ := Option.map_eq_some_iff.mp hs
    obtain ⟨last, -, hpop⟩ := Option.map_eq_some_iff.mp hpop
    obtain rfl : _ = cb := (Prod.mk.inj hpop).2
    exact .ended

/-- One step, by the function that is run. -/
theorem Good.step (hH : LeavesBottom H) (h : Good m.cb)
    (hs : ConnSends.step H junk m x = some m') : Good m'.cb := by
  obtain ⟨conn, cb⟩ := m
  rw [ConnSends.step] at hs
  cases h with
  | ended => cases hs
  | chain h hf =>
    cases hf with
    | handler evt hf =>
      cases x with
      | handler conn' n =>
        obtain rfl := Option.some.inj hs
        exact .chain h (hf.handlers evt n)
      | none | stored | register | read | write => cases hs
    | advance =>
      cases x with
      | stored stored =>
        obtain rfl := Option.some.inj hs
        exact good_advance hH h conn stored
      | none | handler | register | read | write => cases hs
    | beforeRecv =>
      cases x with
      | register accepted =>
        obtain rfl := Option.some.inj hs
        exact good_beforeRecv h conn accepted
      | none | handler | stored | read | write => cases hs
    | send =>
      cases x with
      | write results =>
        obtain ⟨r, hsend, rfl⟩ := Option.map_eq_some_iff.mp hs
        exact good_send hH h hsend
      | none | handler | stored | register | read => cases hs
    | afterSend =>
      cases x with
      | none =>
        obtain rfl := Option.some.inj hs
        exact .chain h .advance
      | handler | stored | register | read | write => cases hs
    | close =>
      cases x with
      | none =>
        obtain rfl := Option.some.inj hs
        exact good_append hH h .afterClose .afterClose
      | handler | stored | register | read | write => cases hs
    | afterClose =>
      cases x with
      | none =>
        obtain rfl := Option.some.inj hs
        exact .ended
      | handler | stored | register | read | write => cases hs
  | reading h =>
    cases x with
    | read r =>
      obtain ⟨⟨conn', cb⟩, hexecute, rfl⟩ := Option.map_eq_some_iff.mp hs
      exact good_executeIo h hexecute
    | none | handler | stored | register | write => cases hs
  | failed h =>
    cases x with
    | none => exact good_recv hH h (consume_pushError ⟨_, []⟩ _) hs
    | handler | stored | register | read | write => cases hs
  | received h hlen =>
    cases x with
    | none => exact good_recv hH h (consume_value ⟨_, []⟩ hlen) hs
    | handler | stored | register | read | write => cases hs

theorem Good.run (hH : LeavesBottom H) {es : List Event} (h : Good m.cb)
    (hr : ConnIndex.run H junk m es = some m') : Good m'.cb := by
  induction es generalizing m with
  | nil => exact Option.some.inj hr ▸ h
  | cons e es ih =>
    rw [ConnIndex.run, List.foldlM_cons] at hr
    obtain ⟨m₁, hnext, hr⟩ := Option.bind_eq_some_iff.mp hr
    refine ih ?_ hr
    cases e with
    | other conn => exact Option.some.inj hnext ▸ h
    | turn x => exact h.step hH hnext

theorem good_opened (hH : LeavesBottom H) (conn : Conn) : Good (opened H conn).cb := by
  have hgood := @good_append H [.conn] _ hH rfl .afterOpen .advance
  exact hgood

theorem indexKept_of (hH : LeavesBottom H) : IndexKept H := by
  rintro junk conn m₀ (rfl | rfl) es m hr
  · exact (Good.run hH (good_opened hH conn) hr).index
  · exact (Good.run hH (.chain rfl .advance) hr).index

/-- A run from an open connection leads here. -/
def Reached (H : Handlers) (m : Machine) : Prop :=
  ∃ conn es, run H (fun _ => 0) (opened H conn) es = some m

theorem Reached.next (h : Reached H m) {e : Event}
    (hn : ConnIndex.next H (fun _ => 0) m e = some m') : Reached H m' := by
  obtain ⟨conn, es, hr⟩ := h
  refine ⟨conn, es ++ [e], ?_⟩
  rw [run, List.foldlM_append]
  change (run H (fun _ => 0) (opened H conn) es >>= fun m => _) = _
  rw [hr]
  change ([e].foldlM (ConnIndex.next H fun _ => 0) m) = _
  rw [List.foldlM_cons, hn]
  rfl

theorem Reached.handlers (h : Reached H ⟨conn, ⟨items, List.replicate n (.handler evt) ++ rest⟩⟩)
    (conn' : Conn) : Reached H ⟨conn', ⟨items, rest⟩⟩ := by
  induction n with
  | zero => exact h.next (e := .other conn') rfl
  | succ n ih => exact ih (h.next (e := .turn (.handler conn 0)) rfl)

/-- The handlers of an event have been put in front of other functions. -/
theorem IndexKept.leaves (h : IndexKept H)
    (hr : Reached H ⟨conn, ⟨H.items evt ++ items, (H.cb evt).funcs ++ rest⟩⟩) (hrest : rest ≠ []) :
    ∀ x ∈ (H.items evt).head?, x = .conn := by
  obtain ⟨conn₀, es, hrun⟩ := hr
  have hindex := h _ _ _ (.inl rfl) es _ hrun (by simp [hrest])
  intro x hx
  rw [stackIndex0, List.head?_append, hx, Option.some_or] at hindex
  exact Option.some.inj hindex

theorem reached_advance (H : Handlers) (conn : Conn) :
    Reached H ⟨conn, ⟨H.items .afterOpen ++ [.conn], [.advance]⟩⟩ :=
  @Reached.handlers H _ _ .afterOpen conn (H.funcs .afterOpen) ⟨conn, [], rfl⟩ conn

/-- Before and behind the handlers for an operation. -/
theorem reached_operation {state : State} {f : Func} (hf : ∀ (conn : Conn) (cb : Cb),
    conn.state = state → advance H conn cb none =
      ⟨{ conn with state := .none }, appendFunc (cb ++ H.cb evt) f⟩) :
    ∃ items conn', Reached H ⟨conn', ⟨H.items evt ++ items, (H.cb evt).funcs ++ [f]⟩⟩ ∧
      ∀ conn, Reached H ⟨conn, ⟨H.items evt ++ items, [f]⟩⟩ := by
  have hnew := reached_advance H { create (fun _ => 0) with state := state }
  have hstep : Reached H (advance H { create (fun _ => 0) with state := state }
      ⟨H.items .afterOpen ++ [.conn], []⟩ none) :=
    hnew.next (e := .turn (.stored none)) rfl
  rw [hf _ _ rfl] at hstep
  exact ⟨_, _, hstep, fun conn => hstep.handlers conn⟩

/-- A buffer with room for one byte, and one with nothing to be sent. -/
def oneByte : Conn := ⟨⟨[0], 0⟩, ⟨[], 0⟩, ⟨0, false⟩, .none⟩

theorem reached_afterRecv (h : Reached H ⟨oneByte, ⟨items, [.beforeRecv]⟩⟩) :
    ∃ conn, Reached H
      ⟨conn, ⟨H.items .afterRecv ++ items, (H.cb .afterRecv).funcs ++ [.advance]⟩⟩ := by
  have hbegun : Reached H ⟨oneByte, stackPush ⟨items, [.executeIo, .recv]⟩ (.epevt 1)⟩ :=
    h.next (e := .turn (.register true)) rfl
  have hread : next H (fun _ => 0) ⟨oneByte, stackPush ⟨items, [.executeIo, .recv]⟩ (.epevt 1)⟩
      (.turn (.read (some [0]))) = some ⟨oneByte, stackPush ⟨items, [.recv]⟩ (.value 1)⟩ := by
    change (executeIo oneByte (stackPush ⟨items, [.recv]⟩ (.epevt 1)) (some [0])).map _ = _
    rw [executeIo, stackPop_push]
    rfl
  have hrecv : next H (fun _ => 0) ⟨oneByte, stackPush ⟨items, [.recv]⟩ (.value 1)⟩ (.turn .none) =
      some ⟨{ oneByte with rbuf := oneByte.rbuf.setPtrRel 1, evtArg.lastRecvLen := 1 },
        appendFunc (⟨items, []⟩ ++ H.cb .afterRecv) .advance⟩ := by
    change recv H oneByte (stackPush ⟨items, []⟩ (.value 1)) = _
    rw [recv, consume_value _ Nat.one_ne_zero]
    rfl
  exact ⟨_, (hbegun.next hread).next hrecv⟩

theorem reached_afterSend (h : Reached H ⟨oneByte, ⟨items, [.send]⟩⟩) :
    ∃ conn, Reached H ⟨conn, ⟨H.items .afterSend ++ items,
      (H.cb .afterSend).funcs ++ [.afterSend, .advance]⟩⟩ := by
  have hsent := h.next (e := .turn (.write [])) rfl
  refine ⟨oneByte, ?_⟩
  rwa [show (H.cb .afterSend).funcs ++ [.afterSend, .advance] =
    [] ++ (H.cb .afterSend).funcs ++ [.afterSend] ++ [.advance] by simp]

theorem leavesBottom_of (h : IndexKept H) : LeavesBottom H := by
  obtain ⟨_, _, hrecv, hbeforeRecv⟩ := @reached_operation H .beforeRecv .recv
    .beforeRecv fun conn cb hstate => by rw [advance, hstate]
  obtain ⟨_, _, hbeforeSend, hsend⟩ := @reached_operation H .beforeSend .send
    .send fun conn cb hstate => by rw [advance, hstate]
  obtain ⟨_, _, hbeforeClose, hclose⟩ := @reached_operation H .beforeClose .close
    .close fun conn cb hstate => by rw [advance, hstate]
  intro evt
  cases evt with
  | afterOpen =>
    have hr : Reached H ⟨oneByte, ⟨H.items .afterOpen ++ [.conn],
      (H.cb .afterOpen).funcs ++ [.advance]⟩⟩ := ⟨oneByte, [], rfl⟩
    exact h.leaves hr (by simp)
  | beforeRecv => exact h.leaves hrecv (by simp)
  | beforeSend => exact h.leaves hbeforeSend (by simp)
  | beforeClose => exact h.leaves hbeforeClose (by simp)
  | afterRecv =>
    obtain ⟨conn, hafter⟩ := reached_afterRecv (hbeforeRecv oneByte)
    exact h.leaves hafter (by simp)
  | afterSend =>
    obtain ⟨conn, hafter⟩ := reached_afterSend (hsend oneByte)
    exact h.leaves hafter (by simp)
  | afterClose =>
    have hclosed := (hclose oneByte).next (e := .turn .none) rfl
    exact h.leaves hclosed (by simp)

/-- The connection is at the bottom of the stack whenever a function of its callback is run, if and
only if no handler has another item at its own bottom. -/
theorem indexKept_iff (H : Handlers) : IndexKept H ↔ LeavesBottom H :=
  ⟨leavesBottom_of, indexKept_of⟩

/-- A handler before a receive with an item of its own. -/
def withItem : Handlers :=
  ⟨fun evt => if evt = .beforeRecv then [.own 0] else [], fun _ => 1⟩

/-- The connection is opened and receives: the first function then finds the item. -/
theorem not_indexKept_item : ¬ IndexKept withItem := by
  intro h
  have hindex := h (fun _ => 0) oneByte _ (.inl rfl)
    [.turn (.handler { oneByte with state := .recv } 0), .turn (.stored none)] _ rfl (by decide)
  exact absurd hindex (by decide)

end Libuo.ConnIndex
