import Libuo.BlockingQueue
import Libuo.SlotRing
import Mathlib.Data.List.Perm.Subperm
import Mathlib.Data.List.Range

/-!
# Items are neither lost nor duplicated

The semaphores count permits, and permits keep the two counters within a round of each
other, whatever the order of the steps. They do not tell whose slot has been filled or
read: as long as every slot is used in the order of the counters, what is dequeued
and what remains are the items enqueued.
-/

namespace Libuo.BlockingQueue
open Interleaving SlotRing

variable {T : Type} {capacity : ℕ} {q : Queue T} {cs cs' : List (Call T)}

/-- A call that has waited and not yet posted. -/
def Call.holdsPermit : Call T → Bool
  | .enqueue _ _ | .dequeue _ => false
  | _ => true

/-- A call whose item counts at the head and not yet at the tail. -/
def Call.isBetween : Call T → Bool
  | .write _ _ | .postDequeue | .addTail => true
  | _ => false

/-- The number of the slot that a call has still to write. -/
def Call.head? : Call T → Option ℕ
  | .write _ head => some head
  | _ => none

/-- The number of the slot that a call takes its item from. -/
def Call.tail? : Call T → Option ℕ
  | .read tail | .postEnqueue tail _ => some tail
  | _ => none

/-- The two counters with the permits, and the items of the claimed slots. -/
structure Counts (capacity : ℕ) (q : Queue T) (cs : List (Call T)) : Prop where
  permits : q.enqueueSem + q.dequeueSem + cs.countP Call.holdsPermit = semInit capacity
  between : q.tail + q.dequeueSem + cs.countP Call.isBetween = q.head
  length : q.enqueued.length = q.head
  wrap : capacity ∣ 2 ^ 64 ∨ q.head ≤ 2 ^ 64

/-- No two calls have the same number, and all have the items of their numbers. -/
structure Numbers (q : Queue T) (cs : List (Call T)) : Prop where
  tails : (q.dequeued.map Prod.fst ++ cs.filterMap Call.tail?).Perm (List.range q.tail)
  heads : (cs.filterMap Call.head?).Nodup
  given : ∀ item head, .write item head ∈ cs → q.enqueued[head]? = some item
  sound : ∀ t item, (t, item) ∈ q.dequeued ∨ .postEnqueue t item ∈ cs →
    ∃ a, item = some a ∧ q.enqueued[t]? = some a

def filled (q : Queue T) (cs : List (Call T)) : Set ℕ :=
  {t | t < q.head ∧ ∀ item, .write item t ∉ cs}

def emptied (q : Queue T) (cs : List (Call T)) : Set ℕ :=
  {t | t < q.tail ∧ .read t ∉ cs}

/-- The slots are used in the order of the counters. -/
structure Inv (capacity : ℕ) (p : Pool (Queue T) (Call T)) : Prop where
  counts : Counts capacity p.shared p.procs
  numbers : Numbers p.shared p.procs
  slots : Ordered capacity (filled p.shared p.procs) (emptied p.shared p.procs) p.shared.items
    fun t => p.shared.enqueued[t]?

theorem Inv.perm (hperm : cs.Perm cs') (h : Inv capacity ⟨q, cs⟩) : Inv capacity ⟨q, cs'⟩ := by
  obtain ⟨⟨hpermits, hbetween, hlength, hwrap⟩, ⟨htails, hheads, hgiven, hsound⟩, hslots⟩ := h
  have hw : filled q cs' = filled q cs := by simp only [filled, hperm.mem_iff]
  have hr : emptied q cs' = emptied q cs := by simp only [emptied, hperm.mem_iff]
  refine ⟨⟨hperm.countP_eq _ ▸ hpermits, hperm.countP_eq _ ▸ hbetween, hlength, hwrap⟩,
    ⟨?_, ?_, ?_, ?_⟩, ?_⟩
  · exact ((hperm.filterMap _).symm.append_left _).trans htails
  · exact (hperm.filterMap _).nodup_iff.mp hheads
  · simpa only [hperm.mem_iff] using hgiven
  · simpa only [hperm.mem_iff] using hsound
  · change Ordered capacity (filled q cs') (emptied q cs') _ _
    rw [hw, hr]
    exact hslots

/-- The counters are within a round of each other. -/
theorem Counts.head_le (h : Counts capacity q cs) : q.head ≤ q.tail + capacity := by
  have hle : cs.countP Call.isBetween ≤ cs.countP Call.holdsPermit :=
    List.countP_mono_left fun c _ => by cases c <;> simp [Call.isBetween, Call.holdsPermit]
  have hinit : semInit capacity ≤ capacity := by
    rw [semInit]
    split <;> omega
  have := h.permits
  have := h.between
  omega

theorem Counts.tail_le (h : Counts capacity q cs) : q.tail ≤ q.head := by
  have := h.between
  omega

theorem Counts.slot_eq (h : Counts capacity q cs) {t : ℕ} (ht : t < q.head) :
    slot capacity t = t % capacity := by
  rw [slot]
  rcases h.wrap with hdvd | hle
  · exact Nat.mod_mod_of_dvd t hdvd
  · rw [Nat.mod_eq_of_lt (a := t) (by omega)]

/-- What a run has to respect: a slot is read after the item of the same number has been
written, it is written after the item of one round before has been read, and the head does
not wrap around between two rounds. -/
def InOrder (capacity : ℕ) (p : Pool (Queue T) (Call T)) : Call T → Unit → Prop
  | .addHead _, _ => capacity ∣ 2 ^ 64 ∨ p.shared.head < 2 ^ 64
  | .write _ head, _ => ∀ tail, .read tail ∈ p.procs → tail + capacity ≠ head
  | .read tail, _ => ∀ item, .write item tail ∉ p.procs
  | _, _ => True

theorem InOrder.perm {c : Call T} {x : Unit} (hperm : cs.Perm cs')
    (h : InOrder capacity ⟨q, cs⟩ c x) : InOrder capacity ⟨q, cs'⟩ c x := by
  cases c with
  | addHead item => exact h
  | write item head => exact fun tail ht => h tail (hperm.mem_iff.mpr ht)
  | read tail => exact fun item hi => h item (hperm.mem_iff.mpr hi)
  | _ => trivial

/-- The outcomes of a step. -/
inductive Step (capacity : ℕ) (q : Queue T) : Call T → Queue T → List (Call T) → Prop
  | refused {c : Call T} (hc : c.holdsPermit = false) : Step capacity q c q []
  | enqueue {item : T} {shouldBlock : Bool} (h : 0 < q.enqueueSem) :
    Step capacity q (.enqueue item shouldBlock) { q with enqueueSem := q.enqueueSem - 1 }
      [.addHead item]
  | addHead {item : T} : Step capacity q (.addHead item)
      { q with head := q.head + 1, enqueued := q.enqueued ++ [item] } [.write item q.head]
  | write {item : T} {head : ℕ} : Step capacity q (.write item head)
      { q with items := Function.update q.items (slot capacity head) (some item) } [.postDequeue]
  | postDequeue : Step capacity q .postDequeue { q with dequeueSem := q.dequeueSem + 1 } []
  | dequeue {shouldBlock : Bool} (h : 0 < q.dequeueSem) :
    Step capacity q (.dequeue shouldBlock) { q with dequeueSem := q.dequeueSem - 1 } [.addTail]
  | addTail : Step capacity q .addTail { q with tail := q.tail + 1 } [.read q.tail]
  | read {tail : ℕ} : Step capacity q (.read tail) q
      [.postEnqueue tail (q.items (slot capacity tail))]
  | postEnqueue {tail : ℕ} {item : Option T} : Step capacity q (.postEnqueue tail item)
      { q with enqueueSem := q.enqueueSem + 1, dequeued := q.dequeued ++ [(tail, item)] } []

theorem step_cases {c : Call T} {x : Unit} {q' : Queue T} {new : List (Call T)}
    (h : step capacity q c x = some (q', new)) : Step capacity q c q' new := by
  cases c with
  | enqueue item shouldBlock =>
    rw [step] at h
    split at h
    · split at h
      · simp at h
      · cases h
        exact .refused rfl
    · cases h
      exact .enqueue (Nat.pos_of_ne_zero ‹_›)
  | dequeue shouldBlock =>
    rw [step] at h
    split at h
    · split at h
      · simp at h
      · cases h
        exact .refused rfl
    · cases h
      exact .dequeue (Nat.pos_of_ne_zero ‹_›)
  | addHead item =>
    cases h
    exact .addHead
  | write item head =>
    cases h
    exact .write
  | postDequeue =>
    cases h
    exact .postDequeue
  | addTail =>
    cases h
    exact .addTail
  | read tail =>
    cases h
    exact .read
  | postEnqueue tail item =>
    cases h
    exact .postEnqueue

theorem Counts.step {c : Call T} {x : Unit} {q' : Queue T} {new : List (Call T)}
    (h : Counts capacity q (c :: cs)) (hc : InOrder capacity ⟨q, c :: cs⟩ c x)
    (hs : Step capacity q c q' new) : Counts capacity q' (new ++ cs) := by
  obtain ⟨hpermits, hbetween, hlength, hwrap⟩ := h
  rw [List.countP_cons] at hpermits hbetween
  have hlog (item : T) : (q.enqueued ++ [item]).length = q.head + 1 := by
    rw [List.length_append, hlength]
    rfl
  cases hs with
  | refused hp =>
    have hb : c.isBetween = false := by
      cases c <;> first | rfl | simp [Call.holdsPermit] at hp
    simp only [hp, hb] at hpermits hbetween
    exact ⟨hpermits, hbetween, hlength, hwrap⟩
  | addHead =>
    refine ⟨?_, ?_, hlog _, hc.imp id Nat.succ_le_of_lt⟩ <;>
      simp [List.countP_cons, Call.holdsPermit, Call.isBetween] at hpermits hbetween ⊢ <;> omega
  | _ =>
    refine ⟨?_, ?_, hlength, hwrap⟩ <;>
      simp [List.countP_cons, Call.holdsPermit, Call.isBetween] at hpermits hbetween ⊢ <;> omega

private theorem mem_head {n : ℕ} (h : n ∈ cs.filterMap Call.head?) :
    ∃ item, .write item n ∈ cs := by
  obtain ⟨c, hc, hhead⟩ := List.mem_filterMap.mp h
  cases c with
  | write item m =>
    cases hhead
    exact ⟨item, hc⟩
  | _ => simp [Call.head?] at hhead

theorem Numbers.lt_head (h : Numbers q cs) (hcounts : Counts capacity q cs) {item : T} {n : ℕ}
    (hm : .write item n ∈ cs) : n < q.head :=
  hcounts.length ▸ (List.getElem?_eq_some_iff.mp (h.given item n hm)).1

theorem Numbers.lt_tail (h : Numbers q cs) {n : ℕ} (hm : .read n ∈ cs) : n < q.tail := by
  have hmem : n ∈ cs.filterMap Call.tail? := List.mem_filterMap.mpr ⟨_, hm, rfl⟩
  exact List.mem_range.mp (h.tails.mem_iff.mp (List.mem_append_right _ hmem))

/-- A slot that is read in order has the item of its number. -/
theorem item_of_read (hcounts : Counts capacity q cs) (h : Numbers q cs)
    (hslots : Ordered capacity (filled q cs) (emptied q cs) q.items fun t => q.enqueued[t]?)
    {tail : ℕ} (hm : .read tail ∈ cs) (hc : ∀ item, .write item tail ∉ cs) :
    ∃ a, q.items (slot capacity tail) = some a ∧ q.enqueued[tail]? = some a := by
  have hlt : tail < q.head := Nat.lt_of_lt_of_le (h.lt_tail hm) hcounts.tail_le
  have hitem := hslots.unread tail ⟨hlt, hc⟩ fun hr => hr.2 hm
  obtain ⟨a, ha⟩ : ∃ a, q.enqueued[tail]? = some a :=
    ⟨_, List.getElem?_eq_getElem (hcounts.length ▸ hlt)⟩
  exact ⟨a, by rw [hcounts.slot_eq hlt, hitem, ha], ha⟩

theorem Numbers.step {c : Call T} {x : Unit} {q' : Queue T} {new : List (Call T)}
    (hcounts : Counts capacity q (c :: cs)) (h : Numbers q (c :: cs))
    (hslots : Ordered capacity (filled q (c :: cs)) (emptied q (c :: cs)) q.items
      fun t => q.enqueued[t]?)
    (hc : InOrder capacity ⟨q, c :: cs⟩ c x)
    (hs : Step capacity q c q' new) : Numbers q' (new ++ cs) := by
  obtain ⟨htails, hheads, hgiven, hsound⟩ := h
  have hgiven' (item : T) (head : ℕ) (hm : .write item head ∈ cs) :
      q.enqueued[head]? = some item := hgiven item head (.tail _ hm)
  have hsound' (t : ℕ) (item : Option T)
      (hm : (t, item) ∈ q.dequeued ∨ .postEnqueue t item ∈ cs) :
      ∃ a, item = some a ∧ q.enqueued[t]? = some a := hsound t item (hm.imp_right (.tail _))
  cases hs with
  | refused hp =>
    cases c with
    | enqueue | dequeue => exact ⟨htails, hheads, hgiven', hsound'⟩
    | _ => simp [Call.holdsPermit] at hp
  | enqueue | dequeue =>
    refine ⟨htails, hheads, fun item head hm => ?_, fun t item hm => ?_⟩
    · exact hgiven' item head (by simpa using hm)
    · exact hsound' t item (by simpa using hm)
  | write =>
    refine ⟨htails, (List.nodup_cons.mp hheads).2, fun item head hm => ?_, fun t item hm => ?_⟩
    · exact hgiven' item head (by simpa using hm)
    · exact hsound' t item (by simpa using hm)
  | postDequeue => exact ⟨htails, hheads, hgiven', hsound'⟩
  | @addHead item =>
    have hnew (t : ℕ) (a : T) (ht : q.enqueued[t]? = some a) :
        (q.enqueued ++ [item])[t]? = some a := by
      rw [List.getElem?_append_left (List.getElem?_eq_some_iff.mp ht).1, ht]
    refine ⟨htails, List.nodup_cons.mpr ⟨fun hm => ?_, hheads⟩,
      fun item' head hm => ?_, fun t item' hm => ?_⟩
    · obtain ⟨item', hm⟩ := mem_head hm
      have := (List.getElem?_eq_some_iff.mp (hgiven' item' q.head hm)).1
      rw [hcounts.length] at this
      exact Nat.lt_irrefl _ this
    · rcases List.mem_cons.mp hm with heq | hm
      · cases heq
        simp [← hcounts.length]
      · exact hnew head item' (hgiven' item' head hm)
    · obtain ⟨a, ha, ht⟩ := hsound' t item' (by simpa using hm)
      exact ⟨a, ha, hnew t a ht⟩
  | addTail =>
    refine ⟨?_, hheads, fun item head hm => ?_, fun t item hm => ?_⟩
    · rw [List.range_succ]
      exact List.perm_middle.trans ((List.Perm.cons _ htails).trans
        (List.perm_append_singleton _ _).symm)
    · exact hgiven' item head (by simpa using hm)
    · exact hsound' t item (by simpa using hm)
  | @read tail =>
    obtain ⟨a, hitem, ha⟩ :=
      item_of_read hcounts ⟨htails, hheads, hgiven, hsound⟩ hslots (.head _) hc
    refine ⟨htails, hheads, fun item head hm => ?_, fun t item hm => ?_⟩
    · exact hgiven' item head (by simpa using hm)
    · rcases hm with hm | hm
      · exact hsound' t item (.inl hm)
      · rcases List.mem_cons.mp hm with heq | hm
        · cases heq
          exact ⟨a, hitem, ha⟩
        · exact hsound' t item (.inr hm)
  | @postEnqueue tail item =>
    refine ⟨?_, hheads, hgiven', fun t item' hm => ?_⟩
    · rw [List.map_append, List.append_assoc]
      exact htails
    · refine hsound t item' ?_
      rcases hm with hm | hm
      · rcases List.mem_append.mp hm with hm | hm
        · exact .inl hm
        · obtain ⟨rfl, rfl⟩ := Prod.mk.inj (List.mem_singleton.mp hm)
          exact .inr (.head _)
      · exact .inr (.tail _ hm)

theorem Numbers.filled_write {item : T} {n : ℕ} {c : Call T} (h : Numbers q (.write item n :: cs))
    (hcounts : Counts capacity q (.write item n :: cs)) (hc : c.head? = none) :
    filled q (c :: cs) = insert n (filled q (.write item n :: cs)) := by
  have hother : ∀ i, .write i n ∉ cs := fun i hm =>
    (List.nodup_cons.mp h.heads).1 (List.mem_filterMap.mpr ⟨_, hm, rfl⟩)
  have hne (i : T) (t : ℕ) : .write i t ≠ c := by
    rintro rfl
    simp [Call.head?] at hc
  ext t
  by_cases ht : t = n
  · subst ht
    simpa [filled, hne, hother] using h.lt_head hcounts (.head _)
  · simp [filled, hne, ht]

theorem Numbers.emptied_read {n : ℕ} {c : Call T} (h : Numbers q (.read n :: cs))
    (hc : ∀ t, .read t ≠ c) : emptied q (c :: cs) = insert n (emptied q (.read n :: cs)) := by
  have hother : .read n ∉ cs := fun hm => by
    have hnodup := h.tails.nodup_iff.mpr List.nodup_range
    exact (List.nodup_cons.mp (List.nodup_append.mp hnodup).2.1).1
      (List.mem_filterMap.mpr ⟨_, hm, rfl⟩)
  ext t
  by_cases ht : t = n
  · subst ht
    simpa [emptied, hc, hother] using h.lt_tail (.head _)
  · simp [emptied, hc, ht]

/-- Every step uses the slots in order. -/
theorem ordered_step {c : Call T} {x : Unit} {q' : Queue T} {new : List (Call T)}
    (hcounts : Counts capacity q (c :: cs)) (h : Numbers q (c :: cs))
    (hslots : Ordered capacity (filled q (c :: cs)) (emptied q (c :: cs)) q.items
      fun t => q.enqueued[t]?)
    (hc : InOrder capacity ⟨q, c :: cs⟩ c x) (hs : Step capacity q c q' new) :
    Ordered capacity (filled q' (new ++ cs)) (emptied q' (new ++ cs)) q'.items
      fun t => q'.enqueued[t]? := by
  cases hs with
  | refused hp =>
    have hw : filled q cs = filled q (c :: cs) := by
      cases c <;> simp [Call.holdsPermit] at hp <;> simp [filled]
    have hr : emptied q cs = emptied q (c :: cs) := by
      cases c <;> simp [Call.holdsPermit] at hp <;> simp [emptied]
    rw [List.nil_append, hw, hr]
    exact hslots
  | @addHead item =>
    have hw : filled { q with head := q.head + 1, enqueued := q.enqueued ++ [item] }
        (.write item q.head :: cs) = filled q (.addHead item :: cs) := by
      ext t
      by_cases ht : t = q.head
      · have : ¬ ∀ i, .write i t ∉ Call.write item q.head :: cs := fun hm => hm item (ht ▸ .head _)
        simp only [filled, Set.mem_ofPred_eq, this, and_false, false_iff, not_and]
        omega
      · have hlt : t < q.head + 1 ↔ t < q.head := by omega
        simp only [filled, List.mem_cons, Call.write.injEq, not_or, not_and, Set.mem_ofPred_eq, hlt,
          ht, not_false_eq_true, implies_true, true_and, reduceCtorEq, false_or]
    have hr : emptied { q with head := q.head + 1, enqueued := q.enqueued ++ [item] }
        (.write item q.head :: cs) = emptied q (.addHead item :: cs) := by
      simp [emptied]
    change Ordered capacity (filled _ (.write item q.head :: cs))
      (emptied _ (.write item q.head :: cs)) _ _
    rw [hw, hr]
    refine hslots.congr fun t ht => ?_
    rw [List.getElem?_append_left (hcounts.length ▸ ht.1)]
  | @write item n =>
    have hlt := h.lt_head hcounts (.head _)
    have hr : emptied q (.postDequeue :: cs) = emptied q (.write item n :: cs) := by
      simp [emptied]
    have hfilled := hslots.afterWrite (n := n) (fun hm => hm.2 item (.head _)) fun t ht =>
      ⟨by have := hcounts.head_le; omega, fun hm => hc t hm ht⟩
    rw [h.given item n (.head _), ← hcounts.slot_eq hlt, ← hr,
      ← h.filled_write (c := .postDequeue) hcounts rfl] at hfilled
    exact hfilled
  | addTail =>
    have hw : filled { q with tail := q.tail + 1 } (.read q.tail :: cs) =
        filled q (.addTail :: cs) := by
      simp [filled]
    have hr : emptied { q with tail := q.tail + 1 } (.read q.tail :: cs) =
        emptied q (.addTail :: cs) := by
      ext t
      by_cases ht : t = q.tail
      · simp [emptied, ht]
      · have hlt : t < q.tail + 1 ↔ t < q.tail := by omega
        simp only [emptied, List.mem_cons, Call.read.injEq, not_or, Set.mem_ofPred_eq, hlt, ht,
          not_false_eq_true, true_and, reduceCtorEq, false_or]
    change Ordered capacity (filled _ (.read q.tail :: cs)) (emptied _ (.read q.tail :: cs)) _ _
    rw [hw, hr]
    exact hslots
  | @read n =>
    have hlt := Nat.lt_of_lt_of_le (h.lt_tail (.head _)) hcounts.tail_le
    have hw : filled q (.postEnqueue n (q.items (slot capacity n)) :: cs) =
        filled q (.read n :: cs) := by
      simp [filled]
    have hemptied := hslots.afterRead (t := n) ⟨hlt, hc⟩
    rw [← h.emptied_read (c := .postEnqueue n (q.items (slot capacity n))) (by simp),
      ← hw] at hemptied
    exact hemptied
  | _ => simpa [filled, emptied] using hslots

theorem Inv.step {c : Call T} {x : Unit} {q' : Queue T} {new : List (Call T)}
    (h : Inv capacity ⟨q, c :: cs⟩) (hc : InOrder capacity ⟨q, c :: cs⟩ c x)
    (hs : step capacity q c x = some (q', new)) : Inv capacity ⟨q', new ++ cs⟩ :=
  ⟨h.counts.step hc (step_cases hs), h.numbers.step h.counts h.slots hc (step_cases hs),
    ordered_step h.counts h.numbers h.slots hc (step_cases hs)⟩

theorem Inv.start {c : Call T} (h : Inv capacity ⟨q, cs⟩)
    (hc : (system T capacity).starts c = true) : Inv capacity ⟨q, c :: cs⟩ := by
  obtain ⟨⟨hpermits, hbetween, hlength, hwrap⟩, ⟨htails, hheads, hgiven, hsound⟩, hslots⟩ := h
  cases c with
  | enqueue | dequeue =>
    refine ⟨⟨?_, ?_, hlength, hwrap⟩, ⟨htails, hheads, ?_, ?_⟩, ?_⟩
    · simpa [Call.holdsPermit] using hpermits
    · simpa [Call.isBetween] using hbetween
    · simpa using hgiven
    · simpa using hsound
    · simpa [filled, emptied] using hslots
  | _ => simp [system] at hc

theorem inv_create (capacity : ℕ) : Inv capacity (create capacity : Pool (Queue T) (Call T)) := by
  refine ⟨⟨by simp [create], rfl, rfl, .inr (Nat.zero_le _)⟩,
    ⟨.refl _, List.nodup_nil, by simp [create], by simp [create]⟩, ?_⟩
  have hw : filled (create capacity : Pool (Queue T) (Call T)).shared [] = ∅ := by
    simp [filled, create]
  have hr : emptied (create capacity : Pool (Queue T) (Call T)).shared [] = ∅ := by
    simp [emptied, create]
  change Ordered capacity (filled (create capacity : Pool (Queue T) (Call T)).shared [])
    (emptied (create capacity : Pool (Queue T) (Call T)).shared []) _ _
  rw [hw, hr]
  exact .empty _ _

/-- The items returned are items enqueued, each once, and when no call is in progress, the
items returned and those that remain are the items enqueued. -/
structure Conserved (capacity : ℕ) (p : Pool (Queue T) (Call T)) : Prop where
  sound : (p.shared.dequeued.map Prod.snd).Subperm (p.shared.enqueued.map some)
  complete : p.procs = [] →
    (p.shared.dequeued.map Prod.snd ++ remaining capacity p.shared).Perm
      (p.shared.enqueued.map some)

theorem map_enqueued (h : Counts capacity q cs) :
    (List.range q.head).map (fun t => q.enqueued[t]?) = q.enqueued.map some := by
  rw [← h.length]
  apply List.ext_getElem?
  intro t
  by_cases ht : t < q.enqueued.length
  · simp [ht]
  · simp [ht]

theorem Inv.conserved {p : Pool (Queue T) (Call T)} (h : Inv capacity p) :
    Conserved capacity p := by
  obtain ⟨q, cs⟩ := p
  obtain ⟨hcounts, hnumbers, hslots⟩ := h
  have hdequeued : q.dequeued.map Prod.snd =
      (q.dequeued.map Prod.fst).map fun t => q.enqueued[t]? := by
    rw [List.map_map]
    refine List.map_congr_left fun d hd => ?_
    obtain ⟨a, ha, ht⟩ := hnumbers.sound d.1 d.2 (.inl hd)
    rw [ha]
    exact ht.symm
  have hall : q.enqueued.map some = (List.range q.tail).map (fun t => q.enqueued[t]?) ++
      (List.range' q.tail (q.head - q.tail)).map fun t => q.enqueued[t]? := by
    rw [← map_enqueued hcounts, ← List.map_append, List.range'_eq_map_range, ← List.range_add,
      Nat.add_sub_cancel' hcounts.tail_le]
  have htaken := hnumbers.tails.map fun t => q.enqueued[t]?
  refine ⟨?_, fun hcs => ?_⟩
  · rw [List.map_append, ← hdequeued] at htaken
    rw [hall]
    exact (List.sublist_append_left _ _).subperm.trans
      (htaken.subperm.trans (List.sublist_append_left _ _).subperm)
  · change cs = [] at hcs
    subst hcs
    have hremaining : remaining capacity q =
        (List.range' q.tail (q.head - q.tail)).map fun t => q.enqueued[t]? := by
      refine List.map_congr_left fun t ht => ?_
      obtain ⟨hle, hlt⟩ := List.mem_range'_1.mp ht
      have hle' : q.tail ≤ q.head := hcounts.tail_le
      have hlt' : t < q.head := by omega
      rw [hcounts.slot_eq hlt']
      exact hslots.unread t ⟨hlt', by simp⟩ fun hr => Nat.not_lt.mpr hle hr.1
    rw [List.filterMap_nil, List.append_nil, ← hdequeued] at htaken
    change (q.dequeued.map Prod.snd ++ remaining capacity q).Perm (q.enqueued.map some)
    rw [hall, hremaining]
    exact htaken.append_right _

/-- A call that is to put an item into the queue, or to return it. -/
def Call.Carries (q : Queue T) (item : T) : Call T → Prop
  | .enqueue a _ | .addHead a => a = item
  | .read tail => q.enqueued[tail]? = some item
  | .postEnqueue _ a => a = some item
  | _ => False

/-- An item of a claimed slot that has not been taken, or of a call. -/
def OnItsWay (q : Queue T) (cs : List (Call T)) (item : T) : Prop :=
  (∃ t, q.tail ≤ t ∧ q.enqueued[t]? = some item) ∨ ∃ c ∈ cs, c.Carries q item

variable {item : T}

theorem OnItsWay.mono (hcs : ∀ c ∈ cs, c ∈ cs') (h : OnItsWay q cs item) : OnItsWay q cs' item :=
  h.imp_right fun ⟨c, hc, hcarries⟩ => ⟨c, hcs c hc, hcarries⟩

theorem not_onItsWay_create (capacity : ℕ) (item : T) :
    ¬ OnItsWay (create capacity).shared [] item := by
  simp [OnItsWay, create]

theorem onItsWay_cons {c : Call T} :
    OnItsWay q (c :: cs) item ↔ c.Carries q item ∨ OnItsWay q cs item := by
  simp only [OnItsWay, List.mem_cons, exists_eq_or_imp]
  exact or_left_comm

/-- A step that leaves the claimed slots as they are. -/
theorem OnItsWay.of_new {c : Call T} {q' : Queue T} {new : List (Call T)}
    (htail : q'.tail = q.tail) (henqueued : q'.enqueued = q.enqueued)
    (hnew : ∀ c' ∈ new, c'.Carries q item → c.Carries q item)
    (h : OnItsWay q' (new ++ cs) item) : OnItsWay q (c :: cs) item := by
  have hcarries (c' : Call T) : c'.Carries q' item ↔ c'.Carries q item := by
    cases c' <;> simp only [Call.Carries, henqueued]
  simp only [OnItsWay, htail, henqueued, hcarries] at h
  refine h.imp_right fun ⟨c', hmem, hc'⟩ => ?_
  rcases List.mem_append.mp hmem with hmem | hmem
  · exact ⟨c, .head _, hnew c' hmem hc'⟩
  · exact ⟨c', .tail _ hmem, hc'⟩

/-- An item that a slot is claimed for is on its way already. -/
theorem OnItsWay.of_addHead {a : T}
    (h : OnItsWay { q with head := q.head + 1, enqueued := q.enqueued ++ [a] }
      (.write a q.head :: cs) item) : OnItsWay q (.addHead a :: cs) item := by
  have hold {t : ℕ} (ht : (q.enqueued ++ [a])[t]? = some item) :
      q.enqueued[t]? = some item ∨ a = item := by
    rw [List.getElem?_append] at ht
    split at ht
    · exact .inl ht
    · obtain ⟨_, ht⟩ := List.getElem?_eq_some_iff.mp ht
      exact .inr (by simpa using ht)
  have hnew (he : a = item) : OnItsWay q (.addHead a :: cs) item := .inr ⟨_, .head _, he⟩
  rcases h with ⟨t, hle, ht⟩ | ⟨c, hmem, hc⟩
  · exact (hold ht).elim (fun ht => .inl ⟨t, hle, ht⟩) hnew
  · rcases List.mem_cons.mp hmem with rfl | hmem
    · exact hc.elim
    · cases c with
      | read t => exact (hold hc).elim (fun ht => .inr ⟨_, .tail _ hmem, ht⟩) hnew
      | _ => exact .inr ⟨_, .tail _ hmem, hc⟩

/-- The item that is taken was in the queue. -/
theorem OnItsWay.of_addTail
    (h : OnItsWay { q with tail := q.tail + 1 } (.read q.tail :: cs) item) :
    OnItsWay q (.addTail :: cs) item := by
  rcases h with ⟨t, hle, ht⟩ | ⟨c, hmem, hc⟩
  · exact .inl ⟨t, Nat.le_of_succ_le hle, ht⟩
  · rcases List.mem_cons.mp hmem with rfl | hmem
    · exact .inl ⟨q.tail, le_rfl, hc⟩
    · exact .inr ⟨c, .tail _ hmem, by cases c <;> exact hc⟩

/-- No step brings an item on its way. -/
theorem onItsWay_step {c : Call T} {x : Unit} {q' : Queue T} {new : List (Call T)}
    (hinv : Inv capacity ⟨q, c :: cs⟩) (hc : InOrder capacity ⟨q, c :: cs⟩ c x)
    (hs : step capacity q c x = some (q', new)) (h : OnItsWay q' (new ++ cs) item) :
    OnItsWay q (c :: cs) item := by
  cases step_cases hs with
  | addHead => exact h.of_addHead
  | addTail => exact h.of_addTail
  | refused _ | postDequeue | postEnqueue => exact h.of_new rfl rfl (by simp)
  | enqueue _ | write | dequeue _ => exact h.of_new rfl rfl (by simp [Call.Carries])
  | @read tail =>
    refine h.of_new rfl rfl fun c' hmem hc' => ?_
    obtain rfl := List.mem_singleton.mp hmem
    obtain ⟨a, hitem, ha⟩ := item_of_read hinv.counts hinv.numbers hinv.slots (.head _) hc
    exact ha.trans (hitem.symm.trans hc')

/-- One item through a queue of one slot. -/
def passing : List (Event (Call ℕ) Unit) :=
  [.start (.enqueue 10 true), .turn 0 (), .turn 0 (), .turn 0 (), .turn 0 (),
    .start (.dequeue false), .turn 0 (), .turn 0 (), .turn 0 (), .turn 0 ()]

/-- The second producer has filled its slot, and the consumer reads that of the first one. -/
def overtaken : List (Event (Call ℕ) Unit) :=
  [.start (.enqueue 10 true), .start (.enqueue 20 true), .turn 0 (), .turn 1 (), .turn 0 (),
    .turn 1 (), .turn 1 (), .turn 1 (), .start (.dequeue true), .turn 1 (), .turn 1 (),
    .turn 1 (), .turn 1 ()]

end Libuo.BlockingQueue
