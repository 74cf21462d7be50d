import Libuo.RefCount
import Mathlib.Data.List.ReduceOption

/-!
# A finalizer runs once, when the last reference is gone

Any number of threads take and release references to any number of resources, each with a
stack of its own. As long as there are fewer than `2 ^ 32` references to a resource when
one more is taken, its count tells how many there are.
-/

namespace Libuo.RefCount
open Lifecycle Interleaving Interleaving.System CellArray

variable {A V F : Type} [DecidableEq A] [DecidableEq V] [DecidableEq F]

/-- The items of a stack, the last of which is on top. -/
def contents (s : Stack A) : List A := (s.items.take s.count).reduceOption

/-- A reference on its way to or from a stack. -/
def Pc.carried : Pc A → List A
  | .asserting a _ | .pushing a | .releasing a _ => [a]
  | _ => []

/-- What has been taken from the stack to be released. -/
def Pc.popped : Pc A → List A
  | .releasing a (some _) => [a]
  | _ => []

def Pc.calls (a : A) : Pc A → Bool
  | .calling b _ => b = a
  | _ => false

def Pc.returns (a : A) : Pc A → Bool
  | .returning b _ => b = a
  | _ => false

def Thread.refs (t : Thread A) : List A := contents t.refstack ++ t.pc.carried

/-- All references, those in stacks and those elsewhere. -/
def refs (s : Shared A V F) (procs : List (Thread A)) : List A :=
  s.hands ++ procs.flatMap Thread.refs

/-- What has happened to one node, the latest event first. -/
def Shared.past (s : Shared A V F) (a : A) : List (Event (V × F)) :=
  s.log.filterMap fun e => if e.1 = a then some e.2 else none

/-- What the stage of a node tells about it: how many references there are, and how many
threads are about to call the finalizer and to return the node. -/
def Matches (w : ℕ) (node : Option (Refcount V F)) (refs calls returns : ℕ) :
    Stage (V × F) → Prop
  | .free => node = none ∧ refs = 0 ∧ calls = 0 ∧ returns = 0
  | .held r n => node = some ⟨r.1, r.2, n % 2 ^ w⟩ ∧ refs = n ∧ 0 < n ∧ n ≤ 2 ^ 32 ∧
      calls = 0 ∧ returns = 0
  | .dying r => (∃ count, node = some ⟨r.1, r.2, count⟩) ∧ refs = 0 ∧ calls = 1 ∧ returns = 0
  | .finalized => node ≠ none ∧ refs = 0 ∧ calls = 0 ∧ returns = 1

/-- The node is at a stage of its history that tells all about it. -/
def Slot (w : ℕ) (s : Shared A V F) (procs : List (Thread A)) (a : A) : Prop :=
  ∃ st, stage (s.past a) = some st ∧ Matches w (s.nodes a) ((refs s procs).count a)
    (procs.countP (·.pc.calls a)) (procs.countP (·.pc.returns a)) st

/-- What callers keep to: a node that the pool hands out is not rented, a reference is taken
while there is one, and released or put into a stack by whoever has it, and a stack is
empty when it is destroyed. -/
def Proper (p : Pool (Shared A V F) (Thread A)) (t : Thread A) (x : Command A V F) : Prop :=
  match t.pc, x with
  | .ready, .create a _ _ | .ready, .push a _ _ => p.shared.nodes a = none
  | .ready, .inc a => a ∈ refs p.shared p.procs
  | .ready, .dec a | .ready, .pushRefcount a => a ∈ p.shared.hands
  | .ready, .destroy => contents t.refstack = []
  | _, _ => True

/-- Fewer than `2 ^ 32` references when one is taken, and a stack whose size in bytes can be
represented when one is pushed. -/
def Fits (p : Pool (Shared A V F) (Thread A)) (t : Thread A) (x : Command A V F) : Prop :=
  match t.pc, x with
  | .ready, .inc a => (refs p.shared p.procs).count a < 2 ^ 32
  | .pushing _, _ => (contents t.refstack).length < 2 ^ 60
  | _, _ => True

/-- Nothing stops the threads, each node is used for one resource at a time, each resource is
finalized once after its last reference has been released, and each stack releases the
latest item first. -/
structure Managed (w : ℕ) (ndebug : Bool) (p : Pool (Shared A V F) (Thread A)) : Prop where
  running : p.shared.aborted = false
  progress : ∀ t ∈ p.procs, ∀ x, Proper p t x → Fits p t x →
    (step w ndebug p.shared t x).isSome = true
  lifecycle : ∀ a, Slot w p.shared p.procs a
  lifo : ∀ t ∈ p.procs, remaining t.history = some (contents t.refstack ++ t.pc.popped)
  once : ∀ a r, (p.shared.past a).count (.finalized r) ≤ (p.shared.past a).count (.created r)
  finished : ∀ a ∉ refs p.shared p.procs, (∀ t ∈ p.procs, t.pc.calls a = false) →
    ∀ r, (p.shared.past a).count (.finalized r) = (p.shared.past a).count (.created r)

/-- A thread knows how many items of its stack it has still to release. -/
def Pc.Agrees (l : List A) : Pc A → Prop
  | .asserting _ count => count ≠ 0
  | .popping left | .releasing _ (some left) | .calling _ (some left) | .returning _ (some left) =>
    left = l.length
  | _ => True

structure Thread.Inv (t : Thread A) (l : List A) : Prop where
  stack : t.refstack.Inv l
  remaining : remaining t.history = some (l ++ t.pc.popped)
  agrees : t.pc.Agrees l

variable {w : ℕ} {ndebug : Bool} {s s' : Shared A V F} {t t' : Thread A}
  {cs new : List (Thread A)} {a b : A} {l : List A} {x : Command A V F} {st : Stage (V × F)}
  {p : Pool (Shared A V F) (Thread A)}

omit [DecidableEq A] in
theorem contents_eq {s : Stack A} (h : s.Inv l) : contents s = l := by
  rw [contents, h.count, h.holds.take, List.reduceOption, List.filterMap_map]
  exact List.filterMap_some

theorem Thread.Inv.contents (h : t.Inv l) : RefCount.contents t.refstack = l := contents_eq h.stack

theorem Thread.Inv.refs (h : t.Inv l) : t.refs = l ++ t.pc.carried := by
  rw [Thread.refs, h.contents]

theorem fresh_inv : (fresh : Thread A).Inv [] := ⟨Stack.create_inv (by omega), rfl, trivial⟩

omit [DecidableEq A] in
@[simp] theorem carried_resume (left : Option ℕ) : Pc.carried (A := A) (resume left) = [] := by
  cases left <;> rfl

omit [DecidableEq A] in
@[simp] theorem popped_resume (left : Option ℕ) : Pc.popped (A := A) (resume left) = [] := by
  cases left <;> rfl

@[simp] theorem calls_resume (a : A) (left : Option ℕ) : (resume left).calls a = false := by
  cases left <;> rfl

@[simp] theorem returns_resume (a : A) (left : Option ℕ) : (resume left).returns a = false := by
  cases left <;> rfl

omit [DecidableEq A] in
theorem agrees_resume {left : Option ℕ} (h : ∀ n, left = some n → n = l.length) :
    (resume left).Agrees l := by
  cases left with
  | none => trivial
  | some n => exact h n rfl

/-- Nothing has failed, each node is at a stage that tells about it, and each thread knows
what is in its stack. -/
structure Inv (w : ℕ) (p : Pool (Shared A V F) (Thread A)) : Prop where
  running : p.shared.aborted = false
  slots : ∀ a, Slot w p.shared p.procs a
  threads : ∀ t ∈ p.procs, ∃ l, t.Inv l

omit [DecidableEq V] [DecidableEq F] in
theorem count_refs_cons (s : Shared A V F) (t : Thread A) (cs : List (Thread A)) (a : A) :
    (refs s (t :: cs)).count a =
      s.hands.count a + t.refs.count a + (cs.flatMap Thread.refs).count a := by
  rw [refs, List.flatMap_cons, List.count_append, List.count_append, Nat.add_assoc]

omit [DecidableEq V] [DecidableEq F] in
theorem past_note (s : Shared A V F) (a b : A) (e : Event (V × F)) :
    (s.note b e).past a = if b = a then e :: s.past a else s.past a := by
  rw [Shared.past, Shared.note, List.filterMap_cons]
  split <;> rename_i h <;> split at h <;> simp_all [Shared.past]

theorem Inv.threads_cons (h : Inv w ⟨s, t :: cs⟩) (ht : t'.Inv l) :
    ∀ u ∈ t' :: cs, ∃ l, u.Inv l := by
  intro u hu
  rcases List.mem_cons.mp hu with rfl | hu
  · exact ⟨l, ht⟩
  · exact h.threads u (List.mem_cons_of_mem _ hu)

/-- An event at a node, with all other nodes as they were. -/
theorem Inv.event (h : Inv w ⟨s, t :: cs⟩) (b : A) (node : Option (Refcount V F))
    (e : Event (V × F)) (hs : List A)
    (hrefs : ∀ a ≠ b, hs.count a + t'.refs.count a = s.hands.count a + t.refs.count a)
    (hcalls : ∀ a ≠ b, t'.pc.calls a = t.pc.calls a)
    (hreturns : ∀ a ≠ b, t'.pc.returns a = t.pc.returns a)
    (hslot : ∀ st n c r, n = (cs.flatMap Thread.refs).count b →
      Matches w (s.nodes b) (s.hands.count b + t.refs.count b + n)
        (c + if t.pc.calls b then 1 else 0) (r + if t.pc.returns b then 1 else 0) st →
      ∃ st', st.next e = some st' ∧ Matches w node (hs.count b + t'.refs.count b + n)
          (c + if t'.pc.calls b then 1 else 0) (r + if t'.pc.returns b then 1 else 0) st')
    (ht : t'.Inv l) :
    Inv w ⟨{ (s.setNode b node).note b e with hands := hs }, t' :: cs⟩ := by
  refine ⟨h.running, fun a => ?_, h.threads_cons ht⟩
  have hpast : ({ (s.setNode b node).note b e with hands := hs } : Shared A V F).past a =
      if b = a then e :: s.past a else s.past a := past_note _ _ _ _
  obtain ⟨st, hst, hm⟩ := h.slots a
  simp only [count_refs_cons, List.countP_cons] at hm
  by_cases hab : a = b
  · subst hab
    obtain ⟨st', hnext, hm'⟩ := hslot st _ _ _ rfl hm
    refine ⟨st', by rw [hpast, if_pos rfl, stage_cons hst, hnext], ?_⟩
    have hnode : Function.update s.nodes a node a = node := Function.update_self _ _ _
    rw [← hnode] at hm'
    simp only [count_refs_cons, List.countP_cons]
    exact hm'
  · refine ⟨st, by rw [hpast, if_neg (Ne.symm hab), hst], ?_⟩
    have hnode : Function.update s.nodes b node a = s.nodes a := Function.update_of_ne hab _ _
    rw [← hnode] at hm
    simp only [count_refs_cons, hrefs a hab, List.countP_cons, hcalls a hab, hreturns a hab]
    exact hm

/-- References have moved, and nothing has happened to the nodes. -/
theorem Inv.move (h : Inv w ⟨s, t :: cs⟩) (hs : List A)
    (hrefs : ∀ a, hs.count a + t'.refs.count a = s.hands.count a + t.refs.count a)
    (hcalls : ∀ a, t'.pc.calls a = t.pc.calls a)
    (hreturns : ∀ a, t'.pc.returns a = t.pc.returns a) (ht : t'.Inv l) :
    Inv w ⟨{ s with hands := hs }, t' :: cs⟩ := by
  refine ⟨h.running, fun a => ?_, h.threads_cons ht⟩
  obtain ⟨st, hst, hm⟩ := h.slots a
  refine ⟨st, hst, ?_⟩
  simp only [count_refs_cons, hrefs, List.countP_cons, hcalls, hreturns] at hm ⊢
  exact hm

section Stages

variable {node : Option (Refcount V F)} {rc : Refcount V F} {n c r : ℕ}

theorem Matches.created (hw : 32 ≤ w) (h : Matches w none n c r st) (ptr : V) (finalizer : F) :
    ∃ st', st.next (.created (ptr, finalizer)) = some st' ∧
      Matches w (some ⟨ptr, finalizer, 1⟩) (n + 1) c r st' := by
  have hone : 1 % 2 ^ w = 1 := Nat.mod_eq_of_lt (Nat.one_lt_two_pow (by omega))
  cases st with
  | free =>
    obtain ⟨-, rfl, hc, hr⟩ := h
    exact ⟨_, rfl, by rw [hone], rfl, Nat.one_pos, by omega, hc, hr⟩
  | held r' m => cases h.1
  | dying r' =>
    obtain ⟨⟨_, h⟩, -⟩ := h
    cases h
  | finalized => exact absurd rfl h.1

omit [DecidableEq V] [DecidableEq F] in
/-- The count of a node that has references tells how many. -/
theorem Matches.count (hw : 32 ≤ w) (h : Matches w (some rc) n c r st) (hn : 0 < n) :
    rc.count = n % 2 ^ w ∧ n ≤ 2 ^ 32 ∧ (rc.count = 1 ↔ n = 1) ∧
      ∃ r', st = .held r' n := by
  cases st with
  | held r' m =>
    obtain ⟨hnode, rfl, -, hle, -⟩ := h
    obtain rfl := Option.some.inj hnode
    refine ⟨rfl, hle, ?_, r', rfl⟩
    have hpow : 2 ^ 32 ≤ 2 ^ w := Nat.pow_le_pow_right (by omega) hw
    change n % 2 ^ w = 1 ↔ n = 1
    rcases Nat.lt_or_ge n (2 ^ w) with hlt | hge
    · rw [Nat.mod_eq_of_lt hlt]
    · have hfull : n = 2 ^ w := by omega
      have hzero : n % 2 ^ w = 0 := by rw [hfull, Nat.mod_self]
      omega
  | free => cases h.1
  | dying r' =>
    have := h.2.1
    omega
  | finalized =>
    have := h.2.1
    omega

theorem Matches.taken (hw : 32 ≤ w) (h : Matches w (some rc) n c r st) (hn : 0 < n)
    (hlt : n < 2 ^ 32) :
    rc.count % 2 ^ 32 ≠ 0 ∧ ∃ st', st.next .taken = some st' ∧
      Matches w (some { rc with count := (rc.count + 1) % 2 ^ w }) (n + 1) c r st' := by
  obtain ⟨hcount, -, -, r', rfl⟩ := h.count hw hn
  obtain ⟨hnode, -, -, -, hc, hr⟩ := h
  have hpow : 2 ^ 32 ≤ 2 ^ w := Nat.pow_le_pow_right (by omega) hw
  have hmod : n % 2 ^ w = n := Nat.mod_eq_of_lt (by omega)
  refine ⟨by rw [hcount, hmod, Nat.mod_eq_of_lt hlt]; omega, _, rfl, ?_, rfl, by omega, hlt, hc, hr⟩
  obtain rfl := Option.some.inj hnode
  rw [hmod]

theorem Matches.released (hw : 32 ≤ w) (h : Matches w (some rc) (n + 1) c r st) :
    ∃ st', st.next .released = some st' ∧
      Matches w (some { rc with count := (rc.count + (2 ^ w - 1)) % 2 ^ w }) n
        (c + if rc.count = 1 then 1 else 0) r st' := by
  obtain ⟨hcount, hle, hone, r', rfl⟩ := h.count hw (Nat.succ_pos n)
  obtain ⟨hnode, -, -, -, rfl, hr⟩ := h
  obtain rfl := Option.some.inj hnode
  refine ⟨_, rfl, ?_⟩
  by_cases hlast : n = 0
  · subst hlast
    rw [if_pos rfl, if_pos (hone.mpr rfl)]
    exact ⟨⟨_, rfl⟩, rfl, rfl, hr⟩
  · rw [if_neg (mt hone.mp (by omega)), if_neg (by omega)]
    refine ⟨?_, rfl, by omega, by omega, rfl, hr⟩
    have hpos := Nat.two_pow_pos w
    simp only [Nat.mod_add_mod]
    rw [show n + 1 + (2 ^ w - 1) = n + 2 ^ w by omega, Nat.add_mod_right, Nat.add_sub_cancel]

theorem Matches.finalized (h : Matches w node n (c + 1) r st) :
    ∃ rc, node = some rc ∧ ∃ st', st.next (.finalized (rc.ptr, rc.finalizer)) = some st' ∧
      Matches w node n c (r + 1) st' := by
  cases st with
  | dying r' =>
    obtain ⟨⟨count, rfl⟩, rfl, hc, rfl⟩ := h
    exact ⟨_, rfl, _, if_pos rfl, by simp, rfl, by omega, rfl⟩
  | free =>
    have := h.2.2.1
    omega
  | held r' m =>
    have := h.2.2.2.2.1
    omega
  | finalized =>
    have := h.2.2.1
    omega

theorem Matches.returned (h : Matches w node n c (r + 1) st) :
    ∃ st', st.next .returned = some st' ∧ Matches w none n c r st' := by
  cases st with
  | finalized =>
    obtain ⟨-, rfl, rfl, hr⟩ := h
    exact ⟨_, rfl, rfl, rfl, rfl, by omega⟩
  | free =>
    have := h.2.2.2
    omega
  | held r' m =>
    have := h.2.2.2.2.2
    omega
  | dying r' =>
    have := h.2.2.2
    omega

end Stages

omit [DecidableEq V] [DecidableEq F] in
theorem create_eq (hnode : s.nodes b = none) (ptr : V) (finalizer : F) :
    s.create b ptr finalizer =
      some ((s.setNode b (some ⟨ptr, finalizer, 1⟩)).note b (.created (ptr, finalizer))) := by
  rw [Shared.create, hnode]
  rfl

omit [DecidableEq V] [DecidableEq F] in
theorem fetchAdd_eq {rc : Refcount V F} (hnode : s.nodes b = some rc) (w n : ℕ) :
    s.fetchAdd w b n =
      some (rc.count, s.setNode b (some { rc with count := (rc.count + n) % 2 ^ w })) := by
  rw [Shared.fetchAdd, hnode]
  rfl

omit [DecidableEq V] [DecidableEq F] in
theorem takeHand_eq (hmem : b ∈ s.hands) :
    s.takeHand b = some { s with hands := s.hands.erase b } := by
  simp [Shared.takeHand, hmem]

theorem count_erase {hands : List A} (hmem : b ∈ hands) (a : A) :
    (hands.erase b).count a + [b].count a = hands.count a := by
  have := (List.perm_cons_erase hmem).count_eq a
  rw [this, List.count_singleton, List.count_cons]

section Steps

variable (hw : 32 ≤ w) (h : Inv w ⟨s, t :: cs⟩) (hl : t.Inv l)
include h

theorem Inv.node_of_mem (ha : a ∈ refs s (t :: cs)) : ∃ rc, s.nodes a = some rc := by
  have hpos := List.count_pos_iff.mpr ha
  obtain ⟨st, -, hm⟩ := h.slots a
  cases st with
  | held r n => exact ⟨_, hm.1⟩
  | free =>
    have := hm.2.1
    simp only at this
    omega
  | dying r =>
    have := hm.2.1
    simp only at this
    omega
  | finalized =>
    have := hm.2.1
    simp only at this
    omega

include hw in
/-- A new resource, with the one reference where the caller puts it. -/
theorem Inv.created (hs : List A) (hnode : s.nodes b = none) (ptr : V) (finalizer : F)
    (hrefs : ∀ a, hs.count a + t'.refs.count a = s.hands.count a + t.refs.count a + [b].count a)
    (hcalls : ∀ a, t'.pc.calls a = t.pc.calls a)
    (hreturns : ∀ a, t'.pc.returns a = t.pc.returns a) (ht : t'.Inv l) :
    ∃ s', s.create b ptr finalizer = some s' ∧ s'.hands = s.hands ∧
      Inv w ⟨{ s' with hands := hs }, t' :: cs⟩ := by
  refine ⟨_, create_eq hnode ptr finalizer, rfl, h.event b _ _ hs (fun a ha => ?_)
    (fun a _ => hcalls a) (fun a _ => hreturns a) (fun st n c r _ hm => ?_) ht⟩
  · rw [hrefs, List.count_singleton, if_neg (by simpa using ha.symm), Nat.add_zero]
  · rw [hnode] at hm
    obtain ⟨st', hnext, hm'⟩ := hm.created hw ptr finalizer
    refine ⟨st', hnext, ?_⟩
    rw [hcalls, hreturns, hrefs, List.count_singleton_self, Nat.add_right_comm]
    exact hm'

include hw hl in
/-- `uo_refcount_inc` counts one more reference. -/
theorem inc_spec (hpc : t.pc = .ready) (hmem : b ∈ refs s (t :: cs))
    (hlt : (refs s (t :: cs)).count b < 2 ^ 32) :
    ∃ s' new, begin w s t (.inc b) = some (s', new) ∧ Inv w ⟨s', new ++ cs⟩ := by
  obtain ⟨rc, hnode⟩ := h.node_of_mem hmem
  have hpos := List.count_pos_iff.mpr hmem
  rw [count_refs_cons] at hpos hlt
  have hne : rc.count % 2 ^ 32 ≠ 0 := by
    obtain ⟨st, -, hm⟩ := h.slots b
    simp only [hnode, count_refs_cons] at hm
    exact (hm.taken hw hpos hlt).1
  obtain ⟨t', ht'⟩ : ∃ t' : Thread A, t' = { t with pc := .asserting b (rc.count % 2 ^ 32) } :=
    ⟨_, rfl⟩
  have hrefs : t'.refs = t.refs ++ [b] := by
    simp [ht', Thread.refs, Pc.carried, hpc]
  have hinv : t'.Inv l := by
    rw [ht']
    exact ⟨hl.stack, by simpa [hpc, Pc.popped] using hl.remaining, hne⟩
  refine ⟨_, [t'], by rw [begin, fetchAdd_eq hnode, ht']; rfl,
    h.event b _ .taken s.hands (fun a ha => ?_) (fun a _ => by simp [ht', hpc, Pc.calls])
    (fun a _ => by simp [ht', hpc, Pc.returns]) (fun st n c r hn hm => ?_) hinv⟩
  · rw [hrefs, List.count_append, List.count_singleton, if_neg (by simpa using ha.symm)]
    rfl
  · rw [hnode] at hm
    obtain ⟨-, st', hnext, hm'⟩ := hm.taken hw (hn ▸ hpos) (hn ▸ hlt)
    refine ⟨st', hnext, ?_⟩
    rw [hrefs, List.count_append, List.count_singleton_self, ← Nat.add_assoc, Nat.add_right_comm]
    simpa [ht', hpc, Pc.calls, Pc.returns] using hm'

omit h in
/-- What a thread without work does with references it is given. -/
theorem Thread.Inv.goto (hpc : t.pc = .ready) (pc : Pc A) (hpopped : pc.popped = [])
    (hagrees : pc.Agrees l) (hl : t.Inv l) : ({ t with pc } : Thread A).Inv l := by
  refine ⟨hl.stack, ?_, hagrees⟩
  have := hl.remaining
  rw [hpc] at this
  rw [hpopped]
  exact this

/-- A reference that was in no stack is carried by a thread. -/
theorem Inv.handed (hl : t.Inv l) (hpc : t.pc = .ready) (hmem : b ∈ s.hands) (pc : Pc A)
    (hcarried : pc.carried = [b]) (hpopped : pc.popped = []) (hagrees : pc.Agrees l)
    (hcalls : ∀ a, pc.calls a = false) (hreturns : ∀ a, pc.returns a = false) :
    Inv w ⟨{ s with hands := s.hands.erase b }, { t with pc } :: cs⟩ := by
  have ht := hl.goto hpc pc hpopped hagrees
  refine h.move _ (fun a => ?_) (fun a => (hcalls a).trans (by rw [hpc]; rfl))
    (fun a => (hreturns a).trans (by rw [hpc]; rfl)) ht
  rw [ht.refs, hl.refs, hpc, hcarried, List.count_append, ← count_erase hmem a]
  simp only [Pc.carried, List.append_nil]
  omega

include hw hl in
theorem begin_spec (hpc : t.pc = .ready) (hp : Proper ⟨s, t :: cs⟩ t x)
    (hf : Fits ⟨s, t :: cs⟩ t x) :
    ∃ s' new, begin w s t x = some (s', new) ∧ Inv w ⟨s', new ++ cs⟩ := by
  have hrefs : t.refs = l := by simp [hl.refs, hpc, Pc.carried]
  cases x with
  | create b ptr finalizer =>
    have hp : s.nodes b = none := by simpa only [Proper, hpc] using hp
    obtain ⟨s', hs', hhands, hinv⟩ := h.created hw (b :: s.hands) hp ptr finalizer
      (fun a => by rw [List.count_cons, List.count_singleton, Nat.add_right_comm])
      (fun _ => rfl) (fun _ => rfl) hl
    exact ⟨_, [t], by rw [begin, hs', Option.bind_eq_bind, Option.bind_some, hhands], hinv⟩
  | inc b =>
    simp only [Proper, Fits, hpc] at hp hf
    exact inc_spec hw h hl hpc hp hf
  | dec b =>
    have hp : b ∈ s.hands := by simpa only [Proper, hpc] using hp
    exact ⟨_, [_], by rw [begin, takeHand_eq hp]; rfl, h.handed hl hpc hp (.releasing b none)
      rfl rfl trivial (fun _ => rfl) fun _ => rfl⟩
  | push b ptr finalizer =>
    have hp : s.nodes b = none := by simpa only [Proper, hpc] using hp
    have ht := hl.goto hpc (.pushing b) rfl trivial
    obtain ⟨s', hs', hhands, hinv⟩ := h.created hw s.hands hp ptr finalizer
      (fun a => by rw [ht.refs, hrefs, List.count_append, Pc.carried, Nat.add_assoc])
      (fun _ => by rw [hpc]; rfl) (fun _ => by rw [hpc]; rfl) ht
    exact ⟨_, [_], by rw [begin, hs']; rfl, hhands ▸ hinv⟩
  | pushRefcount b =>
    have hp : b ∈ s.hands := by simpa only [Proper, hpc] using hp
    exact ⟨_, [_], by rw [begin, takeHand_eq hp]; rfl, h.handed hl hpc hp (.pushing b) rfl rfl
      trivial (fun _ => rfl) fun _ => rfl⟩
  | finalize =>
    have ht := hl.goto hpc (.popping t.refstack.count) rfl hl.stack.count
    refine ⟨_, [_], rfl, h.move s.hands (fun a => ?_)
      (fun _ => by rw [hpc]; rfl) (fun _ => by rw [hpc]; rfl) ht⟩
    simp only [ht.refs, hrefs, Pc.carried, List.append_nil]
  | destroy =>
    refine ⟨_, [], rfl, h.running, fun a => ?_, fun u hu => h.threads u (List.mem_cons_of_mem _ hu)⟩
    obtain ⟨st, hst, hm⟩ := h.slots a
    refine ⟨st, hst, ?_⟩
    have hp : contents t.refstack = [] := by simpa only [Proper, hpc] using hp
    rw [hl.contents] at hp
    simpa [count_refs_cons, hrefs, hp, refs, List.countP_cons, hpc, Pc.calls, Pc.returns] using hm

omit h in
/-- A thread that has released what it took from its stack. -/
theorem Thread.Inv.released {left : Option ℕ} (hl : t.Inv l) (hpc : t.pc = .releasing b left)
    (count : ℕ) :
    ({ t with
      pc := if count = 1 then .calling b left else resume left
      history := if left.isSome then .released b :: t.history else t.history } :
        Thread A).Inv l := by
  have hagrees := hl.agrees
  have hremaining := hl.remaining
  rw [hpc] at hagrees hremaining
  refine ⟨hl.stack, ?_, ?_⟩
  · have hpopped : (if count = 1 then Pc.calling b left else resume left).popped = [] := by
      split
      · rfl
      · exact popped_resume left
    rw [hpopped]
    cases left with
    | none => exact hremaining
    | some n =>
      rw [List.append_nil]
      exact remaining_released hremaining
  · split
    · cases left with
      | none => trivial
      | some n => exact hagrees
    · refine agrees_resume fun n hn => ?_
      rw [hn] at hagrees
      exact hagrees

include hl in
theorem asserting_spec {count : ℕ} (hpc : t.pc = .asserting b count) :
    ∃ s' new, step w ndebug s t x = some (s', new) ∧ Inv w ⟨s', new ++ cs⟩ := by
  have hrun : s.aborted = false := h.running
  have hremaining := hl.remaining
  have hagrees := hl.agrees
  rw [hpc] at hagrees hremaining
  have ht : ({ t with pc := .ready } : Thread A).Inv l := ⟨hl.stack, hremaining, trivial⟩
  refine ⟨_, [_], ?_, h.move (b :: s.hands) (fun a => ?_) (fun _ => by rw [hpc]; rfl)
    (fun _ => by rw [hpc]; rfl) ht⟩
  · simp only [step, hrun, hpc, if_neg (not_and_of_not_left _ hagrees)]
    rfl
  · simp only [hl.refs, ht.refs, hpc, Pc.carried, List.append_nil, List.count_append,
      List.count_cons, List.count_nil]
    omega

include hl in
theorem pushing_spec (hpc : t.pc = .pushing b) (hroom : l.length < 2 ^ 60) :
    ∃ s' new, step w ndebug s t x = some (s', new) ∧ Inv w ⟨s', new ++ cs⟩ := by
  have hrun : s.aborted = false := h.running
  have hremaining := hl.remaining
  rw [hpc] at hremaining
  obtain ⟨refstack, hpush, hstack⟩ := Stack.push_spec hl.stack hroom b
  have ht : (⟨refstack, .ready, .pushed b :: t.history⟩ : Thread A).Inv (l ++ [b]) :=
    ⟨hstack, by simpa [Pc.popped] using remaining_pushed hremaining b, trivial⟩
  refine ⟨s, [_], ?_, h.move s.hands (fun a => ?_) (fun _ => by rw [hpc]; rfl)
    (fun _ => by rw [hpc]; rfl) ht⟩
  · simp only [step, hrun, hpc, hpush]
    rfl
  · simp only [hl.refs, ht.refs, hpc, Pc.carried, List.append_nil]

include hl in
/-- The loop of `uo_refstack_finalize` takes what is on top of the stack, or ends. -/
theorem popping_spec {left : ℕ} (hpc : t.pc = .popping left) :
    ∃ s' new, step w ndebug s t x = some (s', new) ∧ Inv w ⟨s', new ++ cs⟩ := by
  have hrun : s.aborted = false := h.running
  have hrefs := hl.refs
  have hremaining := hl.remaining
  have hagrees := hl.agrees
  rw [hpc] at hagrees hremaining hrefs
  cases left with
  | zero =>
    have ht : ({ t with pc := .ready } : Thread A).Inv l := ⟨hl.stack, hremaining, trivial⟩
    refine ⟨s, [_], ?_, h.move s.hands (fun a => ?_) (fun _ => by rw [hpc]; rfl)
      (fun _ => by rw [hpc]; rfl) ht⟩
    · simp only [step, hrun, hpc]
      rfl
    · simp only [hrefs, ht.refs, Pc.carried]
  | succ left =>
    have hlen : left + 1 = l.length := hagrees
    obtain ⟨l, b, rfl⟩ : ∃ l' b, l = l' ++ [b] :=
      ⟨_, _, (List.dropLast_append_getLast (l := l) (by rintro rfl; cases hlen)).symm⟩
    obtain ⟨refstack, hpop, hstack⟩ := Stack.pop_spec hl.stack
    have ht : (⟨refstack, .releasing b (some left), t.history⟩ : Thread A).Inv l :=
      ⟨hstack, by simpa [Pc.popped] using hremaining, by simpa [Pc.Agrees] using hlen⟩
    refine ⟨s, [_], ?_, h.move s.hands (fun a => ?_) (fun _ => by rw [hpc]; rfl)
      (fun _ => by rw [hpc]; rfl) ht⟩
    · simp only [step, hrun, hpc, hpop]
      rfl
    · simp only [hrefs, ht.refs, Pc.carried, List.append_nil]

include hw hl in
theorem releasing_spec {left : Option ℕ} (hpc : t.pc = .releasing b left) :
    ∃ s' new, step w ndebug s t x = some (s', new) ∧ Inv w ⟨s', new ++ cs⟩ := by
  have hrun : s.aborted = false := h.running
  have hrefs : t.refs = l ++ [b] := by simp [hl.refs, hpc, Pc.carried]
  obtain ⟨rc, hnode⟩ := h.node_of_mem (a := b) (by simp [refs, hrefs])
  have hinv := hl.released hpc rc.count
  obtain ⟨t', ht'⟩ : ∃ t' : Thread A, t' = { t with
    pc := if rc.count = 1 then .calling b left else resume left
    history := if left.isSome then .released b :: t.history else t.history } := ⟨_, rfl⟩
  have hpc' : t'.pc = if rc.count = 1 then .calling b left else resume left := by rw [ht']
  rw [← ht'] at hinv
  have hrefs' : t'.refs = l := by
    rw [hinv.refs, hpc']
    split
    · exact List.append_nil l
    · rw [carried_resume, List.append_nil]
  refine ⟨_, [t'], ?_, h.event b (some { rc with count := (rc.count + (2 ^ w - 1)) % 2 ^ w })
    .released s.hands (fun a ha => ?_) (fun a ha => ?_) (fun a ha => ?_)
    (fun st n c r _ hm => ?_) hinv⟩
  · simp only [step, hrun, hpc, Shared.fetchSub, fetchAdd_eq hnode, ht']
    rfl
  · rw [hrefs, hrefs', List.count_append, List.count_singleton, if_neg (by simpa using ha.symm)]
    rfl
  · rw [hpc, hpc']
    split
    · simp [Pc.calls, ha.symm]
    · exact calls_resume a left
  · rw [hpc, hpc']
    split
    · rfl
    · exact returns_resume a left
  · rw [hnode, hrefs, List.count_append, List.count_singleton_self, ← Nat.add_assoc,
      Nat.add_right_comm] at hm
    obtain ⟨st', hnext, hm'⟩ := hm.released hw
    refine ⟨st', hnext, ?_⟩
    rw [hrefs', hpc']
    rw [hpc] at hm'
    split
    · rename_i hlast
      rw [if_pos hlast] at hm'
      simpa [Pc.calls, Pc.returns] using hm'
    · rename_i hlast
      rw [if_neg hlast] at hm'
      rw [calls_resume, returns_resume]
      exact hm'

include hl in
theorem calling_spec {left : Option ℕ} (hpc : t.pc = .calling b left) :
    ∃ s' new, step w ndebug s t x = some (s', new) ∧ Inv w ⟨s', new ++ cs⟩ := by
  have hrun : s.aborted = false := h.running
  obtain ⟨t', ht'⟩ : ∃ t' : Thread A, t' = { t with pc := .returning b left } := ⟨_, rfl⟩
  have hpc' : t'.pc = .returning b left := by rw [ht']
  have hinv : t'.Inv l := by
    have hagrees := hl.agrees
    have hremaining := hl.remaining
    rw [hpc] at hagrees hremaining
    rw [ht']
    exact ⟨hl.stack, hremaining, by cases left <;> exact hagrees⟩
  have hrefs : t'.refs = t.refs := by
    rw [hinv.refs, hl.refs, hpc, ht']
    rfl
  obtain ⟨st, -, hm⟩ := h.slots b
  simp only [List.countP_cons, hpc, Pc.calls, decide_true, if_true] at hm
  obtain ⟨rc, hnode, -⟩ := hm.finalized
  have hsame : s.setNode b (some rc) = s := by
    rw [Shared.setNode, ← hnode, Function.update_eq_self]
  refine ⟨s.note b (.finalized (rc.ptr, rc.finalizer)), [t'], ?_, ?_⟩
  · simp only [step, hrun, hpc, hnode, ht']
    rfl
  · have hevent : Inv w ⟨(s.setNode b (some rc)).note b (.finalized (rc.ptr, rc.finalizer)),
        t' :: cs⟩ := h.event b (some rc) (.finalized (rc.ptr, rc.finalizer)) s.hands
      (fun a _ => by rw [hrefs]) (fun a ha => by simp [hpc, hpc', Pc.calls, ha.symm])
      (fun a ha => by simp [hpc, hpc', Pc.returns, ha.symm]) (fun st n c r _ hm => ?_) hinv
    · rw [hsame] at hevent
      exact hevent
    · simp only [hpc, Pc.calls, Pc.returns, decide_true, if_true, hnode, Bool.false_eq_true,
        if_false, Nat.add_zero] at hm
      obtain ⟨rc', hrc, st', hnext, hm'⟩ := hm.finalized
      obtain rfl := Option.some.inj hrc
      refine ⟨st', hnext, ?_⟩
      simpa [hrefs, hpc', Pc.calls, Pc.returns] using hm'

include hl in
theorem returning_spec {left : Option ℕ} (hpc : t.pc = .returning b left) :
    ∃ s' new, step w ndebug s t x = some (s', new) ∧ Inv w ⟨s', new ++ cs⟩ := by
  have hrun : s.aborted = false := h.running
  obtain ⟨t', ht'⟩ : ∃ t' : Thread A, t' = { t with pc := resume left } := ⟨_, rfl⟩
  have hpc' : t'.pc = resume left := by rw [ht']
  have hinv : t'.Inv l := by
    have hagrees := hl.agrees
    have hremaining := hl.remaining
    rw [hpc] at hagrees hremaining
    rw [ht']
    refine ⟨hl.stack, by rw [popped_resume]; exact hremaining, agrees_resume fun n hn => ?_⟩
    rw [hn] at hagrees
    exact hagrees
  have hrefs : t'.refs = t.refs := by
    rw [hinv.refs, hl.refs, hpc, ht', carried_resume]
    rfl
  refine ⟨_, [t'], ?_, h.event b none .returned s.hands
    (fun a _ => by rw [hrefs]) (fun a _ => by rw [hpc, hpc', calls_resume]; rfl)
    (fun a ha => by rw [hpc, hpc', returns_resume]; simp [Pc.returns, ha.symm])
    (fun st n c r _ hm => ?_) hinv⟩
  · simp only [step, hrun, hpc, ht']
    rfl
  · simp only [hpc, Pc.calls, Pc.returns, decide_true, if_true, Bool.false_eq_true, if_false,
      Nat.add_zero] at hm
    obtain ⟨st', hnext, hm'⟩ := hm.returned
    refine ⟨st', hnext, ?_⟩
    rw [hrefs, hpc', calls_resume, returns_resume]
    exact hm'

include hw in
/-- What a thread may do it can do, and its step keeps the invariant. -/
theorem step_spec (hp : Proper ⟨s, t :: cs⟩ t x) (hf : Fits ⟨s, t :: cs⟩ t x) :
    ∃ s' new, step w ndebug s t x = some (s', new) ∧ Inv w ⟨s', new ++ cs⟩ := by
  have hrun : s.aborted = false := h.running
  obtain ⟨l, hl⟩ := h.threads t List.mem_cons_self
  cases hpc : t.pc with
  | ready =>
    obtain ⟨s', new, hstep, hinv⟩ := begin_spec hw h hl hpc hp hf
    exact ⟨s', new, by simp only [step, hrun, hpc]; exact hstep, hinv⟩
  | asserting b count => exact asserting_spec h hl hpc
  | pushing b =>
    simp only [Fits, hpc, hl.contents] at hf
    exact pushing_spec h hl hpc hf
  | popping left => exact popping_spec h hl hpc
  | releasing b left => exact releasing_spec hw h hl hpc
  | calling b left => exact calling_spec h hl hpc
  | returning b left => exact returning_spec h hl hpc

end Steps

theorem start_inv (w : ℕ) : Inv w (start : Pool (Shared A V F) (Thread A)) :=
  ⟨rfl, fun _ => ⟨.free, rfl, rfl, rfl, rfl, rfl⟩, fun _ ht => absurd ht List.not_mem_nil⟩

omit [DecidableEq V] [DecidableEq F] in
theorem count_refs_perm {cs' : List (Thread A)} (hperm : cs.Perm cs') (s : Shared A V F) (a : A) :
    (refs s cs).count a = (refs s cs').count a := by
  rw [refs, refs, List.count_append, List.count_append, (hperm.flatMap_right _).count_eq]

theorem Inv.perm {cs' : List (Thread A)} (hperm : cs.Perm cs') (h : Inv w ⟨s, cs⟩) :
    Inv w ⟨s, cs'⟩ := by
  refine ⟨h.running, fun a => ?_, fun t ht => h.threads t (hperm.mem_iff.mpr ht)⟩
  obtain ⟨st, hst, hm⟩ := h.slots a
  refine ⟨st, hst, ?_⟩
  simpa only [count_refs_perm hperm, hperm.countP_eq] using hm

omit [DecidableEq V] [DecidableEq F] in
theorem Proper.perm {cs' : List (Thread A)} (hperm : cs.Perm cs') (h : Proper ⟨s, cs⟩ t x) :
    Proper ⟨s, cs'⟩ t x := by
  have hmem (a : A) : a ∈ refs s cs → a ∈ refs s cs' := fun ha => by
    rw [← List.count_pos_iff, count_refs_perm hperm.symm]
    exact List.count_pos_iff.mpr ha
  unfold Proper at h ⊢
  split at h <;> simp_all

omit [DecidableEq V] [DecidableEq F] in
theorem Fits.perm {cs' : List (Thread A)} (hperm : cs.Perm cs') (h : Fits ⟨s, cs⟩ t x) :
    Fits ⟨s, cs'⟩ t x := by
  unfold Fits at h ⊢
  simp only [count_refs_perm hperm] at h
  exact h

theorem Inv.fresh (h : Inv w ⟨s, cs⟩) : Inv w ⟨s, RefCount.fresh :: cs⟩ := by
  refine ⟨h.running, fun a => ?_, fun t ht => ?_⟩
  · obtain ⟨st, hst, hm⟩ := h.slots a
    refine ⟨st, hst, ?_⟩
    have hrefs : (RefCount.fresh : Thread A).refs = [] := by rw [fresh_inv.refs]; rfl
    rw [count_refs_cons, hrefs, List.countP_cons, List.countP_cons]
    simp only [refs, List.count_append] at hm
    exact hm
  · rcases List.mem_cons.mp ht with rfl | ht
    · exact ⟨[], fresh_inv⟩
    · exact h.threads t ht

theorem Inv.managed (hw : 32 ≤ w) (h : Inv w p) : Managed w ndebug p := by
  refine ⟨h.running, fun t ht x hp hf => ?_, h.slots, fun t ht => ?_, fun a r => ?_,
    fun a ha hcalls r => ?_⟩
  · obtain ⟨l₁, l₂, hprocs⟩ := List.append_of_mem ht
    have hfirst : p.procs.Perm (t :: (l₁ ++ l₂)) := hprocs ▸ List.perm_middle
    obtain ⟨s', new, hstep, -⟩ :=
      step_spec hw (h.perm hfirst) (hp.perm hfirst) (hf.perm hfirst)
    rw [hstep]
    rfl
  · obtain ⟨l, hl⟩ := h.threads t ht
    rw [hl.contents]
    exact hl.remaining
  · obtain ⟨st, hst, -⟩ := h.slots a
    have := count_finalized hst r
    omega
  · obtain ⟨st, hst, hm⟩ := h.slots a
    have hcount := count_finalized hst r
    have hrefs : (refs p.shared p.procs).count a = 0 := List.count_eq_zero.mpr ha
    have hcalls : p.procs.countP (·.pc.calls a) = 0 := by
      rw [List.countP_eq_zero]
      exact fun t ht => by simp [hcalls t ht]
    rw [hrefs, hcalls] at hm
    cases st with
    | held r' n =>
      obtain ⟨-, rfl, hn, -⟩ := hm
      omega
    | dying r' => cases hm.2.2.1
    | free => exact hcount
    | finalized => exact hcount

/-- Nothing goes wrong in any interleaving of the threads as long as there are fewer than
`2 ^ 32` references to a resource when one more is taken. -/
theorem run_managed (hw : 32 ≤ w) {es : List (Interleaving.Event (Thread A) (Command A V F))}
    (hes : (system w ndebug).Along (fun p t x => Proper p t x ∧ Fits p t x) start es)
    (hr : (system w ndebug).run start es = some p) : Managed w ndebug p := by
  refine Inv.managed hw (run_invariant (I := Inv w) (fun hperm h => h.perm hperm)
    (fun hperm h => ⟨h.1.perm hperm, h.2.perm hperm⟩) (fun h hstart => ?_)
    (fun h hA hstep => ?_) (start_inv w) hes hr)
  · obtain rfl := of_decide_eq_true hstart
    exact h.fresh
  · obtain ⟨s', new, hstep', hinv⟩ := step_spec hw h hA.1 hA.2
    obtain ⟨rfl, rfl⟩ := Prod.mk.inj (Option.some.inj (hstep'.symm.trans hstep))
    exact hinv

/-- A resource that one thread has pushed, and another one after it; the first thread
finalizes its stack, and then the second one. -/
def sharing : List (Interleaving.Event (Thread ℕ) (Command ℕ ℕ ℕ)) :=
  .start fresh :: .start fresh ::
    ([(0, .push 0 7 1), (0, .finalize), (1, .inc 0), (1, .finalize), (1, .pushRefcount 0),
      (1, .finalize), (0, .finalize), (0, .finalize), (0, .finalize), (0, .finalize),
      (1, .finalize), (1, .finalize), (1, .finalize), (1, .finalize), (1, .finalize),
      (1, .finalize)] : List (ℕ × Command ℕ ℕ ℕ)).map fun e => .turn e.1 e.2

theorem run_managed_sharing :
    ∃ p, (system 64 false).run start sharing = some p ∧ Managed 64 false p ∧
      (p.shared.past 0).count (.finalized (7, 1)) = 1 := by
  have hrun : ((system 64 false).run start sharing).isSome = true := rfl
  obtain ⟨p, hp⟩ := Option.isSome_iff_exists.mp hrun
  refine ⟨p, hp, run_managed (by omega) ?_ hp, ?_⟩
  · refine along_start rfl (along_start rfl (along_turn rfl ⟨rfl, trivial⟩ rfl
      (along_turn rfl ⟨trivial, ?_⟩ rfl (along_turn rfl ⟨?_, ?_⟩ rfl
      (along_turn rfl ⟨trivial, trivial⟩ rfl (along_turn rfl ⟨?_, trivial⟩ rfl
      (along_turn rfl ⟨trivial, ?_⟩ rfl ?_)))))))
    · exact Nat.two_pow_pos 60
    · exact List.mem_of_elem_eq_true rfl
    · exact Nat.one_lt_two_pow (by omega)
    · exact List.mem_cons_self
    · exact Nat.two_pow_pos 60
    · iterate 10 refine along_turn rfl ⟨trivial, trivial⟩ rfl ?_
      trivial
  · obtain rfl := Option.some.inj (hp.symm.trans rfl)
    rfl

omit [DecidableEq V] [DecidableEq F] in
theorem turn_alone (h : step w ndebug s t x = some (s', new)) :
    (system w ndebug).next ⟨s, [t]⟩ (.turn 0 x) = some ⟨s', new⟩ := next_alone h

/-- One resource, to which `k` references have been taken besides the first one. -/
def counted (k : ℕ) : Shared ℕ ℕ ℕ where
  nodes := Function.update (fun _ => none) 0 (some ⟨0, 0, k + 1⟩)
  hands := List.replicate (k + 1) 0
  aborted := false
  log := List.replicate k (0, .taken) ++ [(0, .created (0, 0))]

theorem inc_counted {k : ℕ} (hk : k < 2 ^ 32) :
    step 64 false (counted k) fresh (.inc 0) =
      some ({ counted (k + 1) with hands := List.replicate (k + 1) 0 },
        [{ fresh with pc := .asserting 0 ((k + 1) % 2 ^ 32) }]) := by
  have hmod : (k + 1 + 1) % 2 ^ 64 = k + 1 + 1 := Nat.mod_eq_of_lt (by omega)
  have hadd := fetchAdd_eq (show (counted k).nodes 0 = some ⟨0, 0, k + 1⟩ from rfl) 64 1
  rw [hmod] at hadd
  change begin 64 (counted k) fresh (.inc 0) = _
  rw [begin, hadd, Option.bind_eq_bind, Option.bind_some]
  simp [Shared.setNode, Shared.note, counted, List.replicate_succ]

theorem past_counted (k : ℕ) :
    (counted k).past 0 = List.replicate k .taken ++ [.created (0, 0)] := by
  rw [Shared.past, counted, List.filterMap_append, List.filterMap_replicate]
  rfl

/-- The assertion on the truncated count fails when there are `2 ^ 32` references already. -/
theorem aborts_of_counted (n k : ℕ) (hn : k + 1 + n = 2 ^ 32) :
    ∃ es p, (system 64 false).Along Proper ⟨counted k, [fresh]⟩ es ∧
      (system 64 false).run ⟨counted k, [fresh]⟩ es = some p ∧ p.shared.aborted = true ∧
      p.shared.past 0 = (counted (2 ^ 32)).past 0 := by
  induction n generalizing k with
  | zero =>
    have hfail : (k + 1) % 2 ^ 32 = 0 := by omega
    have hinc := inc_counted (k := k) (by omega)
    rw [hfail] at hinc
    have hturn := turn_alone hinc
    have habort : (system 64 false).next
        ⟨{ counted (k + 1) with hands := List.replicate (k + 1) 0 },
          [{ fresh with pc := .asserting 0 0 }]⟩ (.turn 0 (.inc 0)) =
        some ⟨{ counted (k + 1) with hands := List.replicate (k + 1) 0, aborted := true },
          [{ fresh with pc := .asserting 0 0 }]⟩ := turn_alone rfl
    refine ⟨[.turn 0 (.inc 0), .turn 0 (.inc 0)], _, along_turn rfl ?_ hturn
      (along_turn rfl trivial habort trivial),
      by rw [run, hturn, Option.bind_some, run, habort]; rfl, rfl, ?_⟩
    · change 0 ∈ refs (counted k) [fresh]
      simp [refs, counted]
    · rw [show 2 ^ 32 = k + 1 by omega]
      rfl
  | succ n ih =>
    obtain ⟨es, p, hes, hr, hp⟩ := ih (k + 1) (by omega)
    have hok : (k + 1) % 2 ^ 32 = k + 1 := Nat.mod_eq_of_lt (by omega)
    have hinc := inc_counted (k := k) (by omega)
    rw [hok] at hinc
    have hturn := turn_alone hinc
    have hdone : (system 64 false).next ⟨{ counted (k + 1) with hands := List.replicate (k + 1) 0 },
        [{ fresh with pc := .asserting 0 (k + 1) }]⟩ (.turn 0 (.inc 0)) =
        some ⟨counted (k + 1), [fresh]⟩ := turn_alone rfl
    refine ⟨.turn 0 (.inc 0) :: .turn 0 (.inc 0) :: es, p, along_turn rfl ?_ hturn
      (along_turn rfl trivial hdone hes),
      by rw [run, hturn, Option.bind_some, run, hdone, Option.bind_some, hr], hp⟩
    change 0 ∈ refs (counted k) [fresh]
    simp [refs, counted]

/-- With `2 ^ 32` references to a resource, taking one more stops the program, and the
finalizer is never called. -/
theorem not_managed_overflow :
    ∃ es p, (system 64 false).Along Proper (start : Pool (Shared ℕ ℕ ℕ) (Thread ℕ)) es ∧
      (system 64 false).run start es = some p ∧ (∀ t x, step 64 false p.shared t x = none) ∧
      (p.shared.past 0).count (.created (0, 0)) = 1 ∧
      (p.shared.past 0).count (.finalized (0, 0)) = 0 ∧ ¬Managed 64 false p := by
  obtain ⟨es, p, hes, hr, habort, hpast⟩ := aborts_of_counted (2 ^ 32 - 1) 0 (by omega)
  have hstart : (system 64 false).next (start : Pool (Shared ℕ ℕ ℕ) (Thread ℕ)) (.start fresh) =
      some ⟨start.shared, [fresh]⟩ := by
    rw [next]
    exact if_pos (decide_eq_true (p := (fresh : Thread ℕ) = fresh) rfl)
  have hcreate : (system 64 false).next (⟨start.shared, [fresh]⟩ : Pool (Shared ℕ ℕ ℕ) (Thread ℕ))
      (.turn 0 (.create 0 0 0)) = some ⟨counted 0, [fresh]⟩ := turn_alone rfl
  refine ⟨.start fresh :: .turn 0 (.create 0 0 0) :: es, p,
    along_start hstart (along_turn rfl rfl hcreate hes),
    by rw [run, hstart, Option.bind_some, run, hcreate, Option.bind_some, hr],
    fun t x => by rw [step, if_pos habort], ?_, ?_, fun h => ?_⟩
  · rw [hpast, past_counted, List.count_append, List.count_replicate]
    rfl
  · rw [hpast, past_counted, List.count_append, List.count_replicate]
    rfl
  · have := h.running
    rw [habort] at this
    cases this

end Libuo.RefCount
