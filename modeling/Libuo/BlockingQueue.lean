import Libuo.Interleaving
import Mathlib.Algebra.Group.Nat.Defs
import Mathlib.Logic.Function.Basic

/-!
# Queues between threads

A ring of slots with a semaphore for the free slots and one for the filled ones. A call
is what a thread has still to do in `uo_queue_enqueue` or `uo_queue_dequeue`; its steps
are the atomic ones of the source. The semaphores do what `sem_wait` and `sem_post`
document, for which the fields of `uo_queue`, of the size of a pointer, have to hold them.
-/

namespace Libuo.BlockingQueue
open Interleaving

variable {T : Type}

/-- `uo_queue`. A slot of `none` has what `malloc` left there. The counters are the numbers
of additions so far, of which an `atomic_size_t` holds the last 64 bits. The items of the
claimed slots and the items returned are kept as a record, the latter with their counters. -/
structure Queue (T : Type) where
  items : ℕ → Option T
  head : ℕ
  tail : ℕ
  enqueueSem : ℕ
  dequeueSem : ℕ
  enqueued : List T
  dequeued : List (ℕ × Option T)

inductive Call (T : Type) where
  | enqueue (item : T) (shouldBlock : Bool)
  | addHead (item : T)
  | write (item : T) (head : ℕ)
  | postDequeue
  | dequeue (shouldBlock : Bool)
  | addTail
  | read (tail : ℕ)
  | postEnqueue (tail : ℕ) (item : Option T)
  deriving DecidableEq

/-- `sem_init`: an `unsigned int`, and no more than `SEM_VALUE_MAX`. -/
def semInit (value : ℕ) : ℕ := if value % 2 ^ 32 < 2 ^ 31 then value % 2 ^ 32 else 0

def create (capacity : ℕ) : Pool (Queue T) (Call T) :=
  ⟨⟨fun _ => none, 0, 0, semInit capacity, 0, [], []⟩, []⟩

def slot (capacity counter : ℕ) : ℕ := counter % 2 ^ 64 % capacity

/-- `uo_queue_enqueue` and `uo_queue_dequeue`. A call that does not block ends when the
semaphore is zero. -/
def step (capacity : ℕ) (q : Queue T) : Call T → Unit → Option (Queue T × List (Call T))
  | .enqueue item shouldBlock, _ =>
    if q.enqueueSem = 0 then if shouldBlock then none else some (q, [])
    else some ({ q with enqueueSem := q.enqueueSem - 1 }, [.addHead item])
  | .addHead item, _ =>
    some ({ q with head := q.head + 1, enqueued := q.enqueued ++ [item] }, [.write item q.head])
  | .write item head, _ =>
    some ({ q with items := Function.update q.items (slot capacity head) (some item) },
      [.postDequeue])
  | .postDequeue, _ => some ({ q with dequeueSem := q.dequeueSem + 1 }, [])
  | .dequeue shouldBlock, _ =>
    if q.dequeueSem = 0 then if shouldBlock then none else some (q, [])
    else some ({ q with dequeueSem := q.dequeueSem - 1 }, [.addTail])
  | .addTail, _ => some ({ q with tail := q.tail + 1 }, [.read q.tail])
  | .read tail, _ => some (q, [.postEnqueue tail (q.items (slot capacity tail))])
  | .postEnqueue tail item, _ =>
    some ({ q with enqueueSem := q.enqueueSem + 1, dequeued := q.dequeued ++ [(tail, item)] }, [])

def system (T : Type) (capacity : ℕ) : System (Queue T) (Call T) Unit where
  starts
    | .enqueue _ _ | .dequeue _ => true
    | _ => false
  step := step capacity

/-- The items between the counters, which the next calls of `uo_queue_dequeue` return. -/
def remaining (capacity : ℕ) (q : Queue T) : List (Option T) :=
  (List.range' q.tail (q.head - q.tail)).map fun t => q.items (slot capacity t)

end Libuo.BlockingQueue
