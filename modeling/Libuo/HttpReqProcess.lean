import Libuo.Callbacks
import Libuo.HttpReqSafety

/-!
# The handlers of a request

When a request has been parsed, the handlers are tried in the order in which they were added. The
loop over them is in a function of the connection's callback: for a handler that matches, it puts
itself and the functions of the handler in front, and keeps its place in the request.
-/

namespace Libuo.HttpReqProcess
open Callbacks HttpReqHandler
open HttpReqSafety (Null)

/-- The functions of a connection's callback: two of the server, and those of the program. -/
inductive Func (U : Type) where
  | passCbToTcpServer
  | processReqHandlers
  | user (u : U)
  deriving DecidableEq

inductive Item (P : Type) where
  | tcpConn
  | httpConn
  | user (p : P)
  deriving DecidableEq

variable {P U W : Type}

/-- A handler that has been added: a callback for a pattern. -/
structure ReqHandler (P U : Type) where
  pattern : List UInt8
  handler : Handler
  cb : Contents (Item P) U
  string : 0 ∉ pattern
  created : create pattern = .ok handler

/-- What a function of the program works on: the stack, the table of parameters with what else is
in memory, and whatever the program keeps. -/
structure View (P W : Type) where
  items : List (Item P)
  data : State
  world : W

/-- The program: what each of its functions does, and whether it sets the status line. -/
structure Program (P U W : Type) where
  act : U → View P W → View P W × Bool
  reqHandlers : List (ReqHandler P U)

/-- A connection with its callback. The place of `prev_handler` is the number of handlers up to it,
and the head of the list is at zero. -/
structure Conn (P U W : Type) where
  cb : Contents (Item P) (Func U)
  startLine : Bool
  prevHandler : ℕ
  data : State
  world : W

variable (prog : Program P U W) (line : List UInt8)

def prependFunc (f : Func U) (C : Contents (Item P) (Func U)) : Contents (Item P) (Func U) :=
  { C with funcs := f :: C.funcs }

/-- `uo_cb_prepend_cb`, of a callback with functions of the program. -/
def prependCb (B : Contents (Item P) U) (C : Contents (Item P) (Func U)) :
    Contents (Item P) (Func U) :=
  ⟨B.items, B.funcs.map .user⟩ ++ C

/-- The `while` loop of `uo_http_server_process_req_handlers`, over the handlers that follow the
one at a place: the place of the handler that has been found. -/
def findHandler : List (ReqHandler P U) → ℕ → State →
    Except Fault (State × Option (ℕ × ReqHandler P U))
  | [], _, data => .ok (data, none)
  | r :: rs, place, data => do
    let (data, found) ← HttpReqSafety.tryHandler r.handler (line ++ [0]) data
    if found then return (data, some (place + 1, r))
    else findHandler rs (place + 1) data

/-- What `uo_http_server_process_req_handlers` does before it invokes the callback. -/
def processReqHandlers (conn : Conn P U W) : Except Fault (Conn P U W) :=
  match conn.cb.items.head? with
  | some .httpConn =>
    if conn.startLine then .ok conn
    else (findHandler line (prog.reqHandlers.drop conn.prevHandler) conn.prevHandler
      conn.data).map fun
      | (data, none) => { conn with data }
      | (data, some (place, r)) => { conn with
          data
          prevHandler := place
          cb := prependCb r.cb (prependFunc .processReqHandlers conn.cb) }
  | _ => .error .outOfBounds

/-- `uo_http_conn_pass_cb_to_tcp_server`, before it invokes the callback. -/
def passCbToTcpServer (conn : Conn P U W) : Except Fault (Conn P U W) :=
  match conn.cb.items.getLast? with
  | some .httpConn =>
    .ok { conn with cb := { conn.cb with items := conn.cb.items.dropLast ++ [.tcpConn] } }
  | _ => .error .outOfBounds

/-- A function is called, up to the place where it invokes the callback. -/
def call (conn : Conn P U W) : Func U → Except Fault (Conn P U W)
  | .passCbToTcpServer => passCbToTcpServer conn
  | .processReqHandlers => processReqHandlers prog line conn
  | .user u =>
    let r := prog.act u ⟨conn.cb.items, conn.data, conn.world⟩
    .ok { conn with
      cb := { conn.cb with items := r.1.items }
      startLine := conn.startLine || r.2
      data := r.1.data
      world := r.1.world }

/-- The callback is invoked until no more than a number of its functions are left, or as often as
the fuel allows: the connection then, and the functions that have been called. -/
def invokeUntil (left : ℕ) : ℕ → Conn P U W → Except Fault (Option (Conn P U W × List (Func U)))
  | 0, _ => .ok none
  | fuel + 1, conn =>
    if conn.cb.funcs.length ≤ left then .ok (some (conn, []))
    else
      match conn.cb.funcs with
      | [] => .ok none
      | f :: funcs => do
        let conn ← call prog line { conn with cb := { conn.cb with funcs } } f
        return (← invokeUntil left fuel conn).map fun r => (r.1, f :: r.2)

/-- The part of `tcp_server_evt_handler_after_recv` for a request that is fully parsed, with the
callbacks of the events that it raises. -/
def fullyParsed (evts : Contents (Item P) U) (conn : Conn P U W) : Conn P U W :=
  { conn with
    prevHandler := 0
    cb := prependCb evts (prependFunc .processReqHandlers (prependFunc .passCbToTcpServer
      { conn.cb with items := conn.cb.items.dropLast ++ [.httpConn] })) }

/-- The functions of a callback, one after the other, and whether one of them sets the status
line. -/
def runFuncs : List U → View P W → View P W × Bool
  | [], s => (s, false)
  | u :: us, s =>
    let r := prog.act u s
    let r' := runFuncs us r.1
    (r'.1, r.2 || r'.2)

/-- A callback leaves the stack as it found it: its functions take its items. -/
def Leaves (C : Contents (Item P) U) : Prop :=
  ∀ s : View P W, (runFuncs prog C.funcs { s with items := s.items ++ C.items }).1.items = s.items

/-- The handlers whose turn comes, and whether they match: all up to the first that matches and
sets the status line. -/
def turns : List (ReqHandler P U) → View P W → List (ReqHandler P U × Bool)
  | [], _ => []
  | r :: rs, s =>
    match HttpReqSafety.tryHandler r.handler (line ++ [0]) s.data with
    | .error _ => [(r, false)]
    | .ok (data, false) => (r, false) :: turns rs { s with data }
    | .ok (data, true) =>
      let t := runFuncs prog r.cb.funcs { s with data, items := s.items ++ r.cb.items }
      (r, true) :: if t.2 then [] else turns rs t.1

/-- The matching ones among these, whose callbacks are to be called. -/
def due (rs : List (ReqHandler P U)) (s : View P W) : List (ReqHandler P U) :=
  ((turns prog line rs s).filter Prod.snd).map Prod.fst

def users (called : List (Func U)) : List U :=
  called.filterMap fun
    | .user u => some u
    | _ => none

variable {prog line} {left place : ℕ} {conn conn' : Conn P U W} {called : List (Func U)}
  {f : Func U} {funcs rest : List (Func U)} {us : List U} {rs : List (ReqHandler P U)}
  {s : View P W}

/-- The callback is invoked until no more than a number of its functions are left. -/
def Ends (prog : Program P U W) (line : List UInt8) (left : ℕ) (conn conn' : Conn P U W)
    (called : List (Func U)) : Prop :=
  ∃ fuel, invokeUntil prog line left fuel conn = .ok (some (conn', called))

theorem ends_of_le (h : conn.cb.funcs.length ≤ left) :
    Ends prog line left conn conn' called ↔ conn' = conn ∧ called = [] := by
  constructor
  · rintro ⟨fuel, hfuel⟩
    cases fuel with
    | zero => cases hfuel
    | succ fuel =>
      rw [invokeUntil, if_pos h] at hfuel
      obtain ⟨rfl, rfl⟩ := Prod.mk.inj (Option.some.inj (Except.ok.inj hfuel))
      exact ⟨rfl, rfl⟩
  · rintro ⟨rfl, rfl⟩
    exact ⟨1, if_pos h⟩

theorem ends_cons (h : conn.cb.funcs = f :: funcs) (hleft : left ≤ funcs.length) :
    Ends prog line left conn conn' called ↔ ∃ conn₁ called₁,
      call prog line { conn with cb := { conn.cb with funcs } } f = .ok conn₁ ∧
        Ends prog line left conn₁ conn' called₁ ∧ called = f :: called₁ := by
  have hmore : ¬ conn.cb.funcs.length ≤ left := by
    rw [h, List.length_cons]
    omega
  constructor
  · rintro ⟨fuel, hfuel⟩
    cases fuel with
    | zero => cases hfuel
    | succ fuel =>
      rw [invokeUntil, if_neg hmore, h] at hfuel
      simp only at hfuel
      cases hcall : call prog line { conn with cb := { conn.cb with funcs } } f with
      | error e =>
        rw [hcall] at hfuel
        cases hfuel
      | ok conn₁ =>
        rw [hcall] at hfuel
        change (invokeUntil prog line left fuel conn₁ >>= fun r => _) = _ at hfuel
        cases hrest : invokeUntil prog line left fuel conn₁ with
        | error e =>
          rw [hrest] at hfuel
          cases hfuel
        | ok found =>
          rw [hrest] at hfuel
          obtain ⟨⟨conn₂, called₁⟩, rfl, he⟩ := Option.map_eq_some_iff.mp (Except.ok.inj hfuel)
          obtain ⟨rfl, rfl⟩ := Prod.mk.inj he
          exact ⟨conn₁, called₁, rfl, ⟨fuel, hrest⟩, rfl⟩
  · rintro ⟨conn₁, called₁, hcall, ⟨fuel, hfuel⟩, rfl⟩
    refine ⟨fuel + 1, ?_⟩
    rw [invokeUntil, if_neg hmore, h]
    simp only [hcall]
    change (invokeUntil prog line left fuel conn₁ >>= fun r => _) = _
    rw [hfuel]
    rfl

def Conn.afterUsers (prog : Program P U W) (us : List U) (funcs : List (Func U))
    (conn : Conn P U W) : Conn P U W :=
  let t := runFuncs prog us ⟨conn.cb.items, conn.data, conn.world⟩
  { conn with
    cb := ⟨t.1.items, funcs⟩
    startLine := conn.startLine || t.2
    data := t.1.data
    world := t.1.world }

theorem ends_users (h : conn.cb.funcs = us.map .user ++ funcs) (hleft : left ≤ funcs.length) :
    Ends prog line left conn conn' called ↔ ∃ called₁,
      Ends prog line left (conn.afterUsers prog us funcs) conn' called₁ ∧
        called = us.map .user ++ called₁ := by
  induction us generalizing conn called with
  | nil =>
    have hconn : conn.afterUsers prog [] funcs = conn := by
      rw [Conn.afterUsers, runFuncs, ← show conn.cb.funcs = funcs from h]
      simp
    rw [hconn]
    simp
  | cons u us ih =>
    have hstep (conn₁ : Conn P U W) : call prog line
        { conn with cb := { conn.cb with funcs := us.map .user ++ funcs } } (.user u) = .ok conn₁ →
          conn₁.cb.funcs = us.map .user ++ funcs ∧
            conn₁.afterUsers prog us funcs = conn.afterUsers prog (u :: us) funcs := by
      intro h
      rw [← Except.ok.inj h]
      refine ⟨rfl, ?_⟩
      simp only [Conn.afterUsers, runFuncs, Bool.or_assoc]
    have hmore : left ≤ (us.map Func.user ++ funcs).length := by
      rw [List.length_append]
      omega
    rw [ends_cons h hmore]
    constructor
    · rintro ⟨conn₁, called₁, hcall, hends, rfl⟩
      obtain ⟨hfuncs, hafter⟩ := hstep conn₁ hcall
      obtain ⟨called₂, hends, rfl⟩ := (ih hfuncs).mp hends
      exact ⟨called₂, by rwa [← hafter], rfl⟩
    · rintro ⟨called₁, hends, rfl⟩
      obtain ⟨hfuncs, hafter⟩ := hstep _ rfl
      exact ⟨_, _, rfl, (ih hfuncs).mpr ⟨called₁, by rwa [hafter], rfl⟩, rfl⟩

theorem ends_callback (h : conn.cb.funcs = us.map .user ++ .processReqHandlers :: rest) :
    Ends prog line rest.length conn conn' called ↔ ∃ conn₁ called₁,
      processReqHandlers prog line (conn.afterUsers prog us rest) = .ok conn₁ ∧
        Ends prog line rest.length conn₁ conn' called₁ ∧
        called = us.map .user ++ .processReqHandlers :: called₁ := by
  rw [ends_users h (Nat.le_succ _)]
  constructor
  · rintro ⟨called₁, hloop, rfl⟩
    obtain ⟨conn₁, called₂, hcall, hends, rfl⟩ := (ends_cons rfl (Nat.le_refl _)).mp hloop
    exact ⟨conn₁, called₂, hcall, hends, rfl⟩
  · rintro ⟨conn₁, called₁, hcall, hends, rfl⟩
    exact ⟨_, (ends_cons (f := .processReqHandlers) rfl (Nat.le_refl _)).mpr
      ⟨conn₁, called₁, hcall, hends, rfl⟩, rfl⟩

theorem ReqHandler.tryHandler_ok (r : ReqHandler P U) (hline : 0 ∉ line) (data : State) :
    (∃ res, HttpReqSafety.tryHandler r.handler (line ++ [0]) data = .ok res) ↔
      ¬ Null r.handler.paramCount r.handler.reqPattern line := by
  refine HttpReqSafety.tryHandler_ok ?_ hline data
  have := HttpReqSafety.count_create r.created r.string
  omega

/-- What is done with the handler that is found from a place on. -/
def proceed (line : List UInt8) (rs : List (ReqHandler P U)) (place : ℕ) (conn : Conn P U W) :
    Except Fault (Conn P U W) :=
  (findHandler line rs place conn.data).map fun
    | (data, none) => { conn with data }
    | (data, some (place, r)) => { conn with
        data
        prevHandler := place
        cb := prependCb r.cb (prependFunc .processReqHandlers conn.cb) }

theorem processReqHandlers_eq (hitems : conn.cb.items = [.httpConn])
    (hstart : conn.startLine = false) : processReqHandlers prog line conn =
      proceed line (prog.reqHandlers.drop conn.prevHandler) conn.prevHandler conn := by
  rw [processReqHandlers, hitems]
  exact if_neg (by simp [hstart])

def Done (rest : List (Func U)) (hs : List (ReqHandler P U)) (conn' : Conn P U W)
    (called : List (Func U)) : Prop :=
  conn'.cb = ⟨[.httpConn], rest⟩ ∧ users called = hs.flatMap fun r => r.cb.funcs

theorem users_map_append (us : List U) (called : List (Func U)) :
    users (us.map .user ++ called) = us ++ users called := by
  induction us with
  | nil => rfl
  | cons u us ih => exact congrArg (u :: ·) ih

theorem turns_error {r : ReqHandler P U} {e : Fault}
    (h : HttpReqSafety.tryHandler r.handler (line ++ [0]) s.data = .error e) :
    turns prog line (r :: rs) s = [(r, false)] := by
  rw [turns, h]

theorem turns_skip {r : ReqHandler P U} {data : State}
    (h : HttpReqSafety.tryHandler r.handler (line ++ [0]) s.data = .ok (data, false)) :
    turns prog line (r :: rs) s = (r, false) :: turns prog line rs { s with data } := by
  rw [turns, h]

theorem turns_found {r : ReqHandler P U} {data : State}
    (h : HttpReqSafety.tryHandler r.handler (line ++ [0]) s.data = .ok (data, true)) :
    turns prog line (r :: rs) s = (r, true) ::
      if (runFuncs prog r.cb.funcs { s with data, items := s.items ++ r.cb.items }).2 then []
      else turns prog line rs
        (runFuncs prog r.cb.funcs { s with data, items := s.items ++ r.cb.items }).1 := by
  rw [turns, h]

/-- Functions of the program in front of the loop: when they have been called, the loop goes on
from a place unless the status line has been set. -/
theorem callback_iff {b : Bool}
    (hfuncs : conn.cb.funcs = us.map .user ++ .processReqHandlers :: rest)
    (hafter : conn.afterUsers prog us rest = ⟨⟨[.httpConn], rest⟩, b, place, s.data, s.world⟩)
    (hrs : prog.reqHandlers.drop place = rs)
    (hloop : (∃ conn₁ conn' called,
        proceed line rs place ⟨⟨[.httpConn], rest⟩, false, place, s.data, s.world⟩ = .ok conn₁ ∧
          Ends prog line rest.length conn₁ conn' called ∧
          Done rest (due prog line rs s) conn' called) ↔
      ∀ r ∈ turns prog line rs s, ¬ Null r.1.handler.paramCount r.1.handler.reqPattern line) :
    (∃ conn' called, Ends prog line rest.length conn conn' called ∧
        conn'.cb = ⟨[.httpConn], rest⟩ ∧ users called =
          us ++ (if b then [] else due prog line rs s).flatMap fun r => r.cb.funcs) ↔
      ∀ r ∈ if b then [] else turns prog line rs s,
        ¬ Null r.1.handler.paramCount r.1.handler.reqPattern line := by
  have husers (called : List (Func U)) :
      users (us.map .user ++ .processReqHandlers :: called) = us ++ users called :=
    users_map_append _ _
  simp only [ends_callback hfuncs, hafter]
  cases b with
  | true =>
    obtain ⟨conn₂, hconn₂⟩ : ∃ conn₂ : Conn P U W, conn₂ =
        ⟨⟨[.httpConn], rest⟩, true, place, s.data, s.world⟩ := ⟨_, rfl⟩
    have hcb : conn₂.cb = ⟨[.httpConn], rest⟩ := hconn₂ ▸ rfl
    refine iff_of_true ⟨conn₂, _, ⟨conn₂, [], by rw [hconn₂]; rfl,
      (ends_of_le (by rw [hcb])).mpr ⟨rfl, rfl⟩, rfl⟩, hcb, ?_⟩ (by simp)
    rw [husers]
    simp [users]
  | false =>
    have hstep : processReqHandlers prog line
        ⟨⟨[.httpConn], rest⟩, false, place, s.data, s.world⟩ =
          proceed line rs place ⟨⟨[.httpConn], rest⟩, false, place, s.data, s.world⟩ := by
      rw [processReqHandlers_eq rfl rfl, hrs]
    rw [if_neg Bool.false_ne_true, if_neg Bool.false_ne_true, ← hloop, hstep]
    constructor
    · rintro ⟨conn', called, ⟨conn₁, called₁, hcall, hends, rfl⟩, hcb, hdone⟩
      rw [husers] at hdone
      exact ⟨conn₁, conn', called₁, hcall, hends, hcb, List.append_cancel_left hdone⟩
    · rintro ⟨conn₁, conn', called₁, hcall, hends, hcb, hdone⟩
      refine ⟨conn', _, ⟨conn₁, called₁, hcall, hends, rfl⟩, hcb, ?_⟩
      rw [husers, hdone]

/-- From a place on, the callbacks that are due are called if and only if no handler whose turn
comes reads through a null pointer. The induction is on the handlers behind the place. -/
theorem proceed_iff (hline : 0 ∉ line) (hleaves : ∀ r ∈ rs, Leaves prog r.cb)
    (hrs : prog.reqHandlers.drop place = rs) (hcb : conn.cb = ⟨[.httpConn], rest⟩)
    (hstart : conn.startLine = false) :
    (∃ conn₁ conn' called, proceed line rs place conn = .ok conn₁ ∧
        Ends prog line rest.length conn₁ conn' called ∧
        Done rest (due prog line rs ⟨[.httpConn], conn.data, conn.world⟩) conn' called) ↔
      ∀ r ∈ turns prog line rs ⟨[.httpConn], conn.data, conn.world⟩,
        ¬ Null r.1.handler.paramCount r.1.handler.reqPattern line := by
  induction rs generalizing place conn with
  | nil =>
    refine iff_of_true ⟨conn, conn, [], rfl, (ends_of_le ?_).mpr ⟨rfl, rfl⟩, hcb, rfl⟩
      (by simp [turns])
    rw [hcb]
  | cons r rs ih =>
    have hdrop : prog.reqHandlers.drop (place + 1) = rs := by
      rw [← List.drop_drop, hrs]
      rfl
    have hleaves' : ∀ r ∈ rs, Leaves prog r.cb := fun r hr => hleaves r (.tail _ hr)
    have hnull := r.tryHandler_ok hline conn.data
    cases htry : HttpReqSafety.tryHandler r.handler (line ++ [0]) conn.data with
    | error e =>
      rw [htry] at hnull
      refine iff_of_false ?_ fun h => ?_
      · rintro ⟨conn₁, -, -, hproceed, -⟩
        rw [proceed, findHandler, htry] at hproceed
        cases hproceed
      · rw [turns_error htry] at h
        obtain ⟨res, hres⟩ := hnull.mpr (h _ (.head _))
        cases hres
    | ok res =>
      obtain ⟨data, found⟩ := res
      have hfine := hnull.mp ⟨_, htry⟩
      cases found with
      | false =>
        have hproceed : proceed line (r :: rs) place conn =
            proceed line rs (place + 1) { conn with data } := by
          rw [proceed, findHandler, htry]
          rfl
        have hskip : turns prog line (r :: rs) ⟨[.httpConn], conn.data, conn.world⟩ =
            (r, false) :: turns prog line rs ⟨[.httpConn], data, conn.world⟩ := turns_skip htry
        rw [hproceed, due, hskip, List.forall_mem_cons]
        have hcb' : ({ conn with data } : Conn P U W).cb = ⟨[.httpConn], rest⟩ := hcb
        exact (ih hleaves' hdrop hcb' hstart).trans ⟨fun h => ⟨hfine, h⟩, fun h => h.2⟩
      | true =>
        obtain ⟨conn₁, hconn₁⟩ : ∃ conn₁ : Conn P U W, conn₁ = { conn with
            data
            prevHandler := place + 1
            cb := ⟨[.httpConn] ++ r.cb.items, r.cb.funcs.map .user ++ .processReqHandlers :: rest⟩
            } := ⟨_, rfl⟩
        have hproceed : proceed line (r :: rs) place conn = .ok conn₁ := by
          rw [proceed, findHandler, htry, hconn₁, hcb]
          rfl
        obtain ⟨t, ht⟩ : ∃ t, t = runFuncs prog r.cb.funcs
            ⟨[.httpConn] ++ r.cb.items, data, conn.world⟩ := ⟨_, rfl⟩
        have hitems : t.1.items = [.httpConn] :=
          ht ▸ hleaves r (.head _) ⟨[.httpConn], data, conn.world⟩
        have hview : (⟨[.httpConn], t.1.data, t.1.world⟩ : View P W) = t.1 := by rw [← hitems]
        have hturns : turns prog line (r :: rs) ⟨[.httpConn], conn.data, conn.world⟩ =
            (r, true) :: if t.2 then [] else turns prog line rs t.1 := by
          rw [turns_found htry, ht]
        have hdue : due prog line (r :: rs) ⟨[.httpConn], conn.data, conn.world⟩ =
            r :: if t.2 then [] else due prog line rs t.1 := by
          rw [due, hturns]
          cases t.2 <;> rfl
        -- the functions of the handler give way to the loop, with its place behind the handler
        have hafter : conn₁.afterUsers prog r.cb.funcs rest =
            ⟨⟨[.httpConn], rest⟩, t.2, place + 1, t.1.data, t.1.world⟩ := by
          simp only [hconn₁, Conn.afterUsers, ← ht, hitems, hstart, Bool.false_or]
        obtain ⟨conn₂, hconn₂⟩ : ∃ conn₂ : Conn P U W, conn₂ =
            ⟨⟨[.httpConn], rest⟩, false, place + 1, t.1.data, t.1.world⟩ := ⟨_, rfl⟩
        have hrest := ih hleaves' hdrop (hconn₂ ▸ rfl : conn₂.cb = ⟨[.httpConn], rest⟩)
          (hconn₂ ▸ rfl : conn₂.startLine = false)
        rw [hconn₂] at hrest
        simp only [hview] at hrest
        have hloop := callback_iff (by rw [hconn₁]) hafter hdrop hrest
        rw [hturns, hdue, List.forall_mem_cons, ← hloop]
        constructor
        · rintro ⟨conn₂, conn', called, hproceed', hends, hcb', hdone⟩
          obtain rfl := Except.ok.inj (hproceed.symm.trans hproceed')
          exact ⟨hfine, conn', called, hends, hcb', hdone⟩
        · rintro ⟨-, conn', called, hends, hcb', hdone⟩
          exact ⟨conn₁, conn', called, hproceed, hends, hcb', hdone⟩

/-- The handlers whose turn comes after the callbacks of the events: none if the status line has
been set. -/
def tried (prog : Program P U W) (line : List UInt8) (evts : Contents (Item P) U)
    (conn : Conn P U W) : List (ReqHandler P U × Bool) :=
  let t := runFuncs prog evts.funcs ⟨[.httpConn] ++ evts.items, conn.data, conn.world⟩
  if conn.startLine || t.2 then [] else turns prog line prog.reqHandlers t.1

/-- The callbacks of the matching handlers whose turn comes are called, in their order and once
each, and the function that gives the callback back is left, with the connection on the stack. -/
def Processed (prog : Program P U W) (line : List UInt8) (evts : Contents (Item P) U)
    (conn : Conn P U W) : Prop :=
  ∃ conn' called,
    Ends prog line (conn.cb.funcs.length + 1) (fullyParsed evts conn) conn' called ∧
      conn'.cb = ⟨[.httpConn], .passCbToTcpServer :: conn.cb.funcs⟩ ∧
      users called = evts.funcs ++
        ((tried prog line evts conn).filter Prod.snd).flatMap fun r => r.1.cb.funcs

/-- The handlers are taken in the order in which they were added. -/
theorem turns_prefix (rs : List (ReqHandler P U)) (s : View P W) :
    (turns prog line rs s).map Prod.fst <+: rs := by
  induction rs generalizing s with
  | nil => exact List.prefix_refl _
  | cons r rs ih =>
    cases htry : HttpReqSafety.tryHandler r.handler (line ++ [0]) s.data with
    | error e =>
      rw [turns_error htry]
      exact List.prefix_append [r] rs
    | ok res =>
      obtain ⟨data, found⟩ := res
      cases found with
      | false =>
        rw [turns_skip htry, List.map_cons]
        exact (List.prefix_cons_inj r).mpr (ih _)
      | true =>
        rw [turns_found htry, List.map_cons]
        refine (List.prefix_cons_inj r).mpr ?_
        split
        · exact List.nil_prefix
        · exact ih _

/-- In memory, the two calls for a handler that matches leave what is modelled here. -/
theorem represents_prepend {T : ℕ → Prop} {h : Heap (Item P) (Func U)}
    {m : ℕ → Option (Contents (Item P) (Func U))} {t c b : ℕ}
    {C : Contents (Item P) (Func U)} {B : Contents (Item P) U} (hrep : Represents T h m) (ht : T t)
    (hc : m c = some C) (hb : m b = some ⟨B.items, B.funcs.map .user⟩) (hbc : b ≠ c)
    (hroom : C.items.length + B.items.length ≤ 2 ^ 60) (f : Func U) :
    ∃ h₁ h₂, h.prependFunc t c f = some h₁ ∧ h₁.prependCb t c b = some h₂ ∧
      Represents T h₂ (Function.update m c (some (prependCb B (prependFunc f C)))) := by
  obtain ⟨cbLists, lists, hinv⟩ := hrep
  obtain ⟨h₁, lists₁, hfunc, hinv₁, -⟩ := hinv.prependFunc ht hc f
  obtain ⟨h₂, lists₂, hcb, hinv₂⟩ := hinv₁.prependCb ht (Function.update_self ..)
    ((Function.update_of_ne hbc ..).trans hb) hbc hroom
  rw [Function.update_idem] at hinv₂
  exact ⟨h₁, h₂, hfunc, hcb, cbLists, lists₂, hinv₂⟩

/-- When callbacks leave the stack as they found it, a request is processed if and only if no
handler whose turn comes reads through a null pointer. -/
theorem processed_iff {evts : Contents (Item P) U} (hevts : Leaves prog evts)
    (hhandlers : ∀ r ∈ prog.reqHandlers, Leaves prog r.cb) (hline : 0 ∉ line)
    (hconn : conn.cb.items = [.tcpConn]) : Processed prog line evts conn ↔
      ∀ r ∈ tried prog line evts conn,
        ¬ Null r.1.handler.paramCount r.1.handler.reqPattern line := by
  obtain ⟨t, ht⟩ : ∃ t, t = runFuncs prog evts.funcs
      ⟨[.httpConn] ++ evts.items, conn.data, conn.world⟩ := ⟨_, rfl⟩
  have hitems : t.1.items = [.httpConn] := ht ▸ hevts ⟨[.httpConn], conn.data, conn.world⟩
  have hview : (⟨[.httpConn], t.1.data, t.1.world⟩ : View P W) = t.1 := by rw [← hitems]
  have hcb : (fullyParsed evts conn).cb.items = [.httpConn] ++ evts.items := by
    rw [fullyParsed, prependCb, Contents.items_append, prependFunc, prependFunc, hconn]
    rfl
  have hafter : (fullyParsed evts conn).afterUsers prog evts.funcs
      (.passCbToTcpServer :: conn.cb.funcs) =
        ⟨⟨[.httpConn], .passCbToTcpServer :: conn.cb.funcs⟩, conn.startLine || t.2, 0, t.1.data,
          t.1.world⟩ := by
    rw [Conn.afterUsers, hcb]
    simp only [fullyParsed, ← ht, hitems]
  obtain ⟨conn₂, hconn₂⟩ : ∃ conn₂ : Conn P U W, conn₂ =
      ⟨⟨[.httpConn], .passCbToTcpServer :: conn.cb.funcs⟩, false, 0, t.1.data, t.1.world⟩ :=
    ⟨_, rfl⟩
  have hproceed := proceed_iff hline hhandlers List.drop_zero
    (hconn₂ ▸ rfl : conn₂.cb = ⟨[.httpConn], .passCbToTcpServer :: conn.cb.funcs⟩)
    (hconn₂ ▸ rfl : conn₂.startLine = false)
  rw [hconn₂] at hproceed
  simp only [hview] at hproceed
  have hloop := callback_iff rfl hafter List.drop_zero hproceed
  rw [Processed, tried, ← ht, ← hloop]
  have hdue : (((if (conn.startLine || t.2) = true then [] else
      turns prog line prog.reqHandlers t.1).filter Prod.snd).flatMap fun r => r.1.cb.funcs) =
        (if (conn.startLine || t.2) = true then [] else
          due prog line prog.reqHandlers t.1).flatMap fun r => r.cb.funcs := by
    split
    · rfl
    · rw [due, List.flatMap_map]
  rw [hdue]
  rfl

def plain (pattern : List UInt8) (h : 0 ∉ pattern) (hcreate : create pattern =
    .ok ⟨pattern ++ [0, 0], 0⟩) (setsStatus : Bool) : ReqHandler Empty Bool :=
  ⟨pattern, _, ⟨[], [setsStatus]⟩, h, hcreate⟩

/-- Two handlers for all requests, the second of which sets the status line, and one for a page. -/
def pages : Program Empty Bool Unit where
  act setsStatus s := (s, setsStatus)
  reqHandlers := [plain (CText.text "GET /*") (by decide) rfl false,
    plain (CText.text "GET /*") (by decide) rfl true,
    plain (CText.text "GET /a") (by decide) rfl false]

/-- A connection that has received a request, with nothing else left to do. -/
def received : Conn Empty Bool Unit := ⟨⟨[.tcpConn], []⟩, false, 0, ⟨[], [], []⟩, ()⟩

theorem processed_iff_pages : Processed pages (CText.text "GET /a") Contents.empty received := by
  have hevts : Leaves pages Contents.empty := fun s => List.append_nil s.items
  have hleaves : ∀ r ∈ pages.reqHandlers, Leaves pages r.cb := by
    intro r hr s
    simp only [pages, plain, List.mem_cons, List.not_mem_nil, or_false] at hr
    rcases hr with rfl | rfl | rfl <;> exact List.append_nil s.items
  refine (processed_iff hevts hleaves (by decide) rfl).mpr fun r hr => ?_
  have hturn : r ∈ turns pages (CText.text "GET /a") pages.reqHandlers
      ⟨[.httpConn], ⟨[], [], []⟩, ()⟩ := hr
  have hmem : r.1 ∈ pages.reqHandlers :=
    List.IsPrefix.mem (List.mem_map_of_mem hturn) <| turns_prefix _ _
  simp only [pages, plain, List.mem_cons, List.not_mem_nil, or_false] at hmem
  rcases hmem with h | h | h <;>
  · rw [h]
    exact id

/-- A handler for the pattern `GET /a/{id}`, which sets the status line. -/
def accounts : Program Empty Bool Unit where
  act setsStatus s := (s, setsStatus)
  reqHandlers := [⟨CText.text "GET /a/{id}", HttpReqSafety.user, ⟨[], [true]⟩, by decide, rfl⟩]

theorem not_processed_accounts : (∀ r ∈ accounts.reqHandlers, Leaves accounts r.cb) ∧
    ¬ Processed accounts (CText.text "GET /a/\x7bid") Contents.empty received := by
  refine ⟨fun r hr s => ?_, ?_⟩
  · simp only [accounts, List.mem_singleton] at hr
    rw [hr]
    exact List.append_nil s.items
  · rintro ⟨conn', called, hends, -⟩
    have hfuncs : (fullyParsed (Contents.empty : Contents (Item Empty) Bool) received).cb.funcs =
        ([] : List Bool).map .user ++ .processReqHandlers :: [.passCbToTcpServer] := rfl
    obtain ⟨conn₁, -, hcall, -⟩ := (ends_callback hfuncs).mp hends
    have hnull : processReqHandlers accounts (CText.text "GET /a/\x7bid")
        ⟨⟨[.httpConn], [.passCbToTcpServer]⟩, false, 0, ⟨[], [], []⟩, ()⟩ =
          .error .nullPointer := rfl
    exact absurd (hcall.symm.trans hnull) (by simp)

end Libuo.HttpReqProcess
