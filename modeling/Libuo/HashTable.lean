import Libuo.LinkList
import Libuo.OpenAddressing
import Libuo.Util

/-!
# Hash tables

An array of links, each with a key and a value, threaded by a circular list in the
order of insertion. The table is rebuilt at twice its size when it is half full, and
at the same size when a quarter of it has been removed.

The operations have the names of the source without `uo_hashtbl_`.
-/

namespace Libuo.HashTable
open LinkList OpenAddressing Util

def minCapacity : ℕ := 0x10

def tagRemoved : UInt64 := ~~~0

/-- `uo_kvp`. A key of `none` is `NULL`, and so is a value of `0`. -/
structure Item (K : Type) where
  key : Option K
  value : UInt64

inductive Node where
  | head
  | slot (i : ℕ)
  deriving DecidableEq

/-- `uo_hashtbl`; the list links of the array elements are kept with that of the head. -/
structure Hashtbl (K : Type) where
  ring : Links Node
  count : ℕ
  removedCount : ℕ
  capacity : ℕ
  links : ℕ → Item K

/-- Why an operation does not return: no memory, a search that goes on forever, or a
`NULL` pointer that is followed. -/
inductive Failure where
  | alloc | probe | fault
  deriving DecidableEq

variable {K : Type} (H : KeyType K)

/-- `calloc(capacity, sizeof *links)`: a size of 32 bytes for each link has to be
representable. -/
def calloc (capacity : ℕ) : Except Failure (ℕ → Item K) :=
  if capacity * 32 < 2 ^ 64 then .ok fun _ => ⟨none, 0⟩ else .error .alloc

def orFault {α : Type} : Option α → Except Failure α
  | some a => .ok a
  | none => .error .fault

/-- `create_at`. -/
def create (initialCapacity : ℕ) : Except Failure (Hashtbl K) := do
  let capacity :=
    if initialCapacity ≥ minCapacity then (ceilPow2 (UInt64.ofNat initialCapacity)).toNat
    else minCapacity
  let links ← calloc capacity
  pure ⟨Links.zero.selflink .head, 0, 0, capacity, links⟩

def skips (item : Item K) (key : K) : Bool :=
  (match item.key with
    | some k => !H.equals k key
    | none => false) || item.value = tagRemoved

/-- The `while` loop of `find_link`. -/
def findLoop (links : ℕ → Item K) (mask : ℕ) (key : K) : ℕ → ℕ → Except Failure ℕ
  | 0, _ => .error .probe
  | fuel + 1, h =>
    if skips H (links (h &&& mask)) key then findLoop links mask key fuel ((h + 1) % 2 ^ 64)
    else .ok (h &&& mask)

/-- `find_link`. After `capacity` steps the search is back at its start, so that one that
has not ended by then never does. -/
def findLink (links : ℕ → Item K) (capacity : ℕ) (key : K) : Except Failure ℕ :=
  let mask := (capacity + (2 ^ 64 - 1)) % 2 ^ 64
  findLoop H links mask key capacity ((H.hash key).toNat &&& mask)

/-- The `for` loop of `resize`; the old links are only read. -/
def resizeLoop (old : Links Node) (oldLinks : ℕ → Item K) (capacity : ℕ) :
    ℕ → Option Node → (ℕ → Item K) × Links Node → Except Failure ((ℕ → Item K) × Links Node)
  | 0, _, new => .ok new
  | count + 1, some (.slot i), (newLinks, ring) => do
    let item := oldLinks i
    let key ← orFault item.key
    let j ← findLink H newLinks capacity key
    let ring ← orFault (ring.link .head (.slot j))
    resizeLoop old oldLinks capacity count (old.next (.slot i))
      (Function.update newLinks j item, ring)
  | _ + 1, _, _ => .error .fault

def resize (t : Hashtbl K) (capacity : ℕ) : Except Failure (Hashtbl K) := do
  let newLinks ← calloc capacity
  let first := t.ring.next .head
  let old ← orFault (t.ring.unlink .head)
  let (links, ring) ← resizeLoop H old t.links capacity t.count first
    (newLinks, Links.zero.selflink .head)
  pure { t with capacity, links, ring }

def get (t : Hashtbl K) : Option K → Except Failure UInt64
  | none => .ok 0
  | some key => do
    let link ← findLink H t.links t.capacity key
    pure (t.links link).value

def set (t : Hashtbl K) (key : Option K) (value : UInt64) : Except Failure (Hashtbl K) :=
  match key with
  | none => .ok t
  | some key => do
    let link ← findLink H t.links t.capacity key
    if (t.links link).key.isSome then
      pure { t with links := Function.update t.links link { t.links link with value } }
    else
      let ring ← orFault (t.ring.link .head (.slot link))
      let t := { t with
        links := Function.update t.links link ⟨some key, value⟩
        ring
        count := (t.count + 1) % 2 ^ 64 }
      if t.count = t.capacity >>> 1 then
        let t ← resize H t (t.capacity <<< 1 % 2 ^ 64)
        pure { t with removedCount := 0 }
      else pure t

/-- The first `if` at the end of `remove`: a quarter of the table has been removed. -/
def sweep (t : Hashtbl K) : Except Failure (Hashtbl K) :=
  if t.removedCount ≥ t.capacity >>> 2 then do
    let t ← resize H t t.capacity
    pure { t with removedCount := 0 }
  else pure t

/-- The second `if`. It compares a truth value with the minimal capacity, as the source does. -/
def shrink (t : Hashtbl K) : Except Failure (Hashtbl K) :=
  if (if t.count = t.capacity >>> 3 then 1 else 0) ≥ minCapacity then do
    let t ← resize H t (t.capacity >>> 1)
    pure { t with removedCount := 0 }
  else pure t

def remove (t : Hashtbl K) (key : Option K) : Except Failure (UInt64 × Hashtbl K) :=
  match key with
  | none => .ok (0, t)
  | some key => do
    let link ← findLink H t.links t.capacity key
    if (t.links link).key.isNone then
      pure (0, t)
    else
      let value := (t.links link).value
      let ring ← orFault (t.ring.unlink (.slot link))
      let t ← sweep H { t with
        links := Function.update t.links link ⟨none, tagRemoved⟩
        ring
        removedCount := (t.removedCount + 1) % 2 ^ 64
        count := (t.count + (2 ^ 64 - 1)) % 2 ^ 64 }
      let t ← shrink H t
      pure (value, t)

end Libuo.HashTable
