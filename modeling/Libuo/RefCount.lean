import Libuo.Interleaving
import Libuo.Lifecycle
import Libuo.Stack
import Mathlib.Logic.Function.Basic

/-!
# Reference counts and stacks of references

A reference count is kept in a node that is rented from a pool of nodes. References to it
are in stacks, each of which is used by one thread, or elsewhere. The count is an atomic
number of `w` bits, where `w` is that of `uint_fast32_t`.
-/

namespace Libuo

deriving instance DecidableEq for Stack

namespace RefCount
open Lifecycle Interleaving

structure Refcount (V F : Type) where
  ptr : V
  finalizer : F
  count : ℕ

/-- What the threads share: the nodes that are rented, the references that are in no stack,
and whether an assertion has failed. The log is of what has happened to the nodes. -/
structure Shared (A V F : Type) where
  nodes : A → Option (Refcount V F)
  hands : List A
  aborted : Bool
  log : List (A × Event (V × F))

/-- Where a thread is. Of `uo_refstack_finalize`, a number of iterations is left. -/
inductive Pc (A : Type) where
  | ready
  | asserting (a : A) (count : ℕ)
  | pushing (a : A)
  | popping (left : ℕ)
  | releasing (a : A) (left : Option ℕ)
  | calling (a : A) (left : Option ℕ)
  | returning (a : A) (left : Option ℕ)
  deriving DecidableEq

/-- A thread with its stack, and what has happened to the items of the stack. -/
structure Thread (A : Type) where
  refstack : Stack A
  pc : Pc A
  history : List (StackEvent A)
  deriving DecidableEq

/-- What a thread is to do next; a node to be rented is the one the pool hands out. -/
inductive Command (A V F : Type) where
  | create (a : A) (ptr : V) (finalizer : F)
  | inc (a : A)
  | dec (a : A)
  | push (a : A) (ptr : V) (finalizer : F)
  | pushRefcount (a : A)
  | finalize
  | destroy

variable {A V F : Type} [DecidableEq A]

namespace Shared

def note (s : Shared A V F) (a : A) (e : Event (V × F)) : Shared A V F :=
  { s with log := (a, e) :: s.log }

def setNode (s : Shared A V F) (a : A) (node : Option (Refcount V F)) : Shared A V F :=
  { s with nodes := Function.update s.nodes a node }

def create (s : Shared A V F) (a : A) (ptr : V) (finalizer : F) : Option (Shared A V F) := do
  guard (s.nodes a).isNone
  some ((s.setNode a (some ⟨ptr, finalizer, 1⟩)).note a (.created (ptr, finalizer)))

def fetchAdd (w : ℕ) (s : Shared A V F) (a : A) (n : ℕ) : Option (ℕ × Shared A V F) := do
  let refcount ← s.nodes a
  some (refcount.count, s.setNode a (some { refcount with count := (refcount.count + n) % 2 ^ w }))

def fetchSub (w : ℕ) (s : Shared A V F) (a : A) (n : ℕ) : Option (ℕ × Shared A V F) :=
  s.fetchAdd w a (2 ^ w - n)

/-- A reference that is in no stack comes to be in the hands of one thread. -/
def takeHand (s : Shared A V F) (a : A) : Option (Shared A V F) := do
  guard (a ∈ s.hands)
  some { s with hands := s.hands.erase a }

end Shared

/-- After `uo_refcount_dec`: the next iteration, if it was called in one. -/
def resume : Option ℕ → Pc A
  | some left => .popping left
  | none => .ready

/-- The thread created by `uo_refstack_create_at`. -/
def fresh : Thread A := ⟨.create 0, .ready, []⟩

def begin (w : ℕ) (s : Shared A V F) (t : Thread A) :
    Command A V F → Option (Shared A V F × List (Thread A))
  | .create a ptr finalizer => do
    let s ← s.create a ptr finalizer
    some ({ s with hands := a :: s.hands }, [t])
  | .inc a => do
    let (count, s) ← s.fetchAdd w a 1
    some (s.note a .taken, [{ t with pc := .asserting a (count % 2 ^ 32) }])
  | .dec a => do
    let s ← s.takeHand a
    some (s, [{ t with pc := .releasing a none }])
  | .push a ptr finalizer => do
    let s ← s.create a ptr finalizer
    some (s, [{ t with pc := .pushing a }])
  | .pushRefcount a => do
    let s ← s.takeHand a
    some (s, [{ t with pc := .pushing a }])
  | .finalize => some (s, [{ t with pc := .popping t.refstack.count }])
  | .destroy => some (s, [])

/-- The step of a thread. None is taken once an assertion has failed, which none does in a
program compiled with `NDEBUG`. -/
def step (w : ℕ) (ndebug : Bool) (s : Shared A V F) (t : Thread A) (x : Command A V F) :
    Option (Shared A V F × List (Thread A)) :=
  if s.aborted then none else
  match t.pc with
  | .ready => begin w s t x
  | .asserting a count =>
    if count = 0 ∧ !ndebug then some ({ s with aborted := true }, [t])
    else some ({ s with hands := a :: s.hands }, [{ t with pc := .ready }])
  | .pushing a => do
    let refstack ← t.refstack.push a
    some (s, [⟨refstack, .ready, .pushed a :: t.history⟩])
  | .popping 0 => some (s, [{ t with pc := .ready }])
  | .popping (left + 1) => do
    let (a, refstack) ← t.refstack.pop
    some (s, [{ t with refstack, pc := .releasing a (some left) }])
  | .releasing a left => do
    let (count, s) ← s.fetchSub w a 1
    let history := if left.isSome then .released a :: t.history else t.history
    let pc := if count = 1 then .calling a left else resume left
    some (s.note a .released, [{ t with pc, history }])
  | .calling a left => do
    let refcount ← s.nodes a
    some (s.note a (.finalized (refcount.ptr, refcount.finalizer)),
      [{ t with pc := .returning a left }])
  | .returning a left =>
    some ((s.setNode a none).note a .returned, [{ t with pc := resume left }])

/-- A refstack may be created at any time. -/
def system (w : ℕ) (ndebug : Bool) : System (Shared A V F) (Thread A) (Command A V F) where
  starts t := t = fresh
  step := step w ndebug

def start : Pool (Shared A V F) (Thread A) := ⟨⟨fun _ => none, [], false, []⟩, []⟩

end RefCount

end Libuo
