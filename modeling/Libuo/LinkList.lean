import Mathlib.Data.List.Chain
import Mathlib.Data.List.Nodup
import Mathlib.Data.Option.Basic
import Mathlib.Logic.Function.Basic
import Mathlib.Tactic.Common

/-!
# Circular doubly linked lists

The links of all nodes are two maps. A ring is read from one of its nodes by `next`;
since it may be read from any of them, inserting before a node and removing a node
need to be described only for the node at which the reading starts.

The operations have the names of the source without `uo__linklist_`.
-/

namespace Libuo.LinkList

/-- `next` and `prev` of every node; `none` is `NULL`. -/
structure Links (N : Type) where
  next : N → Option N
  prev : N → Option N

variable {N : Type}

/-- One node follows another. -/
def Linked (L : Links N) (a b : N) : Prop := L.next a = some b ∧ L.prev b = some a

/-- The ring of `h` and the nodes behind it. -/
structure Ring (L : Links N) (h : N) (l : List N) : Prop where
  nodup : (h :: l).Nodup
  chain : (h :: (l ++ [h])).IsChain (Linked L)

/-- The nodes met in `n` steps from a node. -/
def follow (step : N → Option N) : ℕ → N → Option (List N)
  | 0, _ => some []
  | n + 1, x => do
    let y ← step x
    let ys ← follow step n y
    some (y :: ys)

/-- Outside some nodes nothing has changed. -/
def Frame (L L' : Links N) (l : List N) : Prop :=
  ∀ x ∉ l, L'.next x = L.next x ∧ L'.prev x = L.prev x

variable {L L' : Links N} {h n p x : N} {l l₁ l₂ : List N}

theorem follow_of_isChain {step : N → Option N}
    (hchain : (x :: l).IsChain fun a b => step a = some b) : follow step l.length x = some l := by
  induction l generalizing x with
  | nil => rfl
  | cons y l ih =>
    obtain ⟨hxy, htail⟩ := List.isChain_cons_cons.mp hchain
    rw [List.length_cons, follow, hxy]
    simp [ih htail]

/-- Of two readings from a node the shorter is the beginning of the longer. -/
theorem follow_initial {step : N → Option N} {n k : ℕ} (hnk : n ≤ k)
    (hn : follow step n x = some l₁) (hk : follow step k x = some l₂) : l₁ <+: l₂ := by
  induction n generalizing k x l₁ l₂ with
  | zero =>
    obtain rfl := Option.some.inj hn
    exact List.nil_prefix
  | succ n ih =>
    obtain ⟨k, rfl⟩ : ∃ j, k = j + 1 := ⟨k - 1, by omega⟩
    simp only [follow, Option.bind_eq_bind, Option.bind_eq_some_iff, Option.some.injEq] at hn hk
    obtain ⟨y, hy, ys, hys, rfl⟩ := hn
    obtain ⟨z, hz, zs, hzs, rfl⟩ := hk
    obtain rfl : y = z := Option.some.inj (hy.symm.trans hz)
    exact List.cons_prefix_cons.mpr ⟨rfl, ih (by omega) hys hzs⟩

/-- Two readings that end at the first return to a head are the same. -/
theorem follow_unique {step : N → Option N} {n k : ℕ} (hn : follow step n x = some (l₁ ++ [h]))
    (hk : follow step k x = some (l₂ ++ [h])) (h₁ : h ∉ l₁) (h₂ : h ∉ l₂) : l₁ = l₂ := by
  have hends {l l' : List N} (hpre : l ++ [h] <+: l' ++ [h]) (hl' : h ∉ l') : l = l' := by
    rcases List.prefix_concat_iff.mp hpre with heq | hshort
    · exact List.append_cancel_right heq
    · exact absurd (hshort.subset (by simp)) hl'
  rcases Nat.le_total n k with hnk | hkn
  · exact hends (follow_initial hnk hn hk) h₂
  · exact (hends (follow_initial hkn hk hn) h₁).symm

theorem Ring.follow_next (hr : Ring L h l) :
    follow L.next (l.length + 1) h = some (l ++ [h]) := by
  have := follow_of_isChain (hr.chain.imp fun _ _ hab => hab.1)
  simpa using this

theorem Ring.follow_prev (hr : Ring L h l) :
    follow L.prev (l.length + 1) h = some (l.reverse ++ [h]) := by
  have hchain : (h :: (l.reverse ++ [h])).IsChain fun a b => L.prev a = some b := by
    have := hr.chain.imp fun _ _ hab => hab.2
    rw [← List.isChain_reverse] at this
    simpa using this
  have := follow_of_isChain hchain
  simpa using this

theorem Ring.rotate (hr : Ring L h (l₁ ++ p :: l₂)) : Ring L p (l₂ ++ h :: l₁) := by
  have hchain : (h :: l₁ ++ p :: (l₂ ++ [h])).IsChain (Linked L) := by simpa using hr.chain
  have hperm : (h :: (l₁ ++ p :: l₂)).Perm (p :: (l₂ ++ h :: l₁)) := by
    have : (h :: l₁ ++ p :: l₂).Perm (p :: l₂ ++ h :: l₁) := List.perm_append_comm
    simpa using this
  refine ⟨hperm.nodup_iff.mp hr.nodup, ?_⟩
  obtain ⟨h₁, h₂⟩ := List.isChain_split.mp hchain
  have : (p :: l₂ ++ h :: (l₁ ++ [p])).IsChain (Linked L) :=
    List.isChain_split.mpr ⟨by simpa using h₂, by simpa using h₁⟩
  simpa using this

theorem Ring.exists_last (hr : Ring L h l) :
    ∃ m b, h :: l = m ++ [b] ∧ Linked L b h ∧ (m ++ [b]).IsChain (Linked L) := by
  obtain ⟨m, b, hm⟩ : ∃ m b, h :: l = m ++ [b] := by
    rcases List.eq_nil_or_concat (h :: l) with hnil | ⟨m, b, hb⟩
    · nomatch hnil
    · exact ⟨m, b, by simpa using hb⟩
  have hchain : (m ++ b :: [h]).IsChain (Linked L) := by
    have := hr.chain
    rw [← List.cons_append, hm] at this
    simpa using this
  obtain ⟨h₁, h₂⟩ := List.isChain_split.mp hchain
  exact ⟨m, b, hm, by simpa using h₂, h₁⟩

/-- A chain survives when only the links of the last node to the first have changed. -/
private theorem chain_congr (L' : Links N) {b : N} (hb : L.next b = some x)
    (hx : x ∉ l) (hchain : (h :: l).IsChain (Linked L))
    (hnext : ∀ y ∈ h :: l, y ≠ b → L'.next y = L.next y)
    (hprev : ∀ y ∈ l, L'.prev y = L.prev y) : (h :: l).IsChain (Linked L') := by
  refine List.IsChain.imp_of_mem_tail_imp (fun y z hy hz hyz => ?_) hchain
  have hne : y ≠ b := by
    rintro rfl
    rw [hyz.1, Option.some.injEq] at hb
    exact hx (hb ▸ hz)
  exact ⟨(hnext y hy hne).trans hyz.1, (hprev z hz).trans hyz.2⟩

variable [DecidableEq N]

namespace Links

/-- All nodes zero-filled. -/
def zero : Links N := ⟨fun _ => none, fun _ => none⟩

def setNext (L : Links N) (n : N) (o : Option N) : Links N :=
  { L with next := Function.update L.next n o }

def setPrev (L : Links N) (n : N) (o : Option N) : Links N :=
  { L with prev := Function.update L.prev n o }

def selflink (L : Links N) (head : N) : Links N :=
  (L.setPrev head (some head)).setNext head (some head)

def reset (L : Links N) (link : N) : Links N := (L.setPrev link none).setNext link none

def isLinked (L : Links N) (link : N) : Bool := (L.next link).isSome

/-- `uo__linklist_link`: the new node is put before `pos`. -/
def link (L : Links N) (pos n : N) : Option (Links N) := do
  guard !L.isLinked n
  let last ← L.prev pos
  let L := (L.setPrev n (some last)).setNext last (some n)
  some ((L.setNext n (some pos)).setPrev pos (some n))

def unlink (L : Links N) (n : N) : Option (Links N) := do
  let after ← L.next n
  let L := L.setPrev after (L.prev n)
  let before ← L.prev n
  let L := L.setNext before (L.next n)
  some (L.reset n)

end Links

theorem ring_selflink (L : Links N) (h : N) : Ring (L.selflink h) h [] := by
  refine ⟨by simp, ?_⟩
  simp [Linked, Links.selflink, Links.setNext, Links.setPrev]

theorem Ring.link (hr : Ring L h l) (hn : n ∉ h :: l) (hfree : L.next n = none) :
    ∃ L', L.link h n = some L' ∧ Ring L' h (l ++ [n]) ∧ Frame L L' (n :: h :: l) := by
  obtain ⟨m, b, hm, ⟨hbh, hhb⟩, hchain⟩ := hr.exists_last
  have hbmem : b ∈ h :: l := hm ▸ by simp
  have hbn : b ≠ n := fun he => hn (he ▸ hbmem)
  have hhn : h ≠ n := fun he => hn (by simp [he])
  have hnl : n ∉ l := fun hl => hn (by simp [hl])
  have hhl : h ∉ l := (List.nodup_cons.mp hr.nodup).1
  refine ⟨_, by simp [Links.link, Links.isLinked, hfree, hhb]; rfl, ⟨?_, ?_⟩, ?_⟩
  · have : (h :: l ++ [n]).Nodup := by
      simp only [List.nodup_append, hr.nodup, List.nodup_singleton, List.mem_singleton, true_and]
      rintro a ha _ rfl rfl
      exact hn ha
    simpa using this
  · have hlast : (h :: l).IsChain (Linked L) := hm ▸ hchain
    have hkeep := chain_congr ((((L.setPrev n (some b)).setNext b (some n)).setNext n
      (some h)).setPrev h (some n)) hbh hhl hlast
      (fun y hy hyb => by
        have hyn : y ≠ n := fun he => hn (he ▸ hy)
        simp [Links.setNext, Links.setPrev, hyb, hyn])
      (fun y hy => by
        have hyn : y ≠ n := fun he => hnl (he ▸ hy)
        have hyh : y ≠ h := fun he => hhl (he ▸ hy)
        simp [Links.setNext, Links.setPrev, hyn, hyh])
    rw [hm] at hkeep
    have : (m ++ b :: [n, h]).IsChain (Linked _) := List.isChain_split.mpr ⟨hkeep, by
      simp [Linked, Links.setNext, Links.setPrev, hbn, hhn.symm]⟩
    rw [List.append_assoc, ← List.cons_append, hm]
    simpa using this
  · intro y hy
    simp only [List.mem_cons, not_or] at hy
    have hyb : y ≠ b := by
      rintro rfl
      simp only [List.mem_cons] at hbmem
      tauto
    simp [Links.setNext, Links.setPrev, hy.1, hy.2.1, hyb]

/-- Removing the head of a ring leaves the ring of the others. -/
theorem Ring.unlink_head {a : N} (hr : Ring L h (a :: l)) :
    ∃ L', L.unlink h = some L' ∧ Ring L' a l ∧ L'.next h = none ∧ Frame L L' (h :: a :: l) := by
  obtain ⟨m, b, hm, ⟨hbh, hhb⟩, hchain⟩ := hr.exists_last
  have hchain : (h :: a :: l).IsChain (Linked L) := hm ▸ hchain
  obtain ⟨⟨hha, -⟩, htail⟩ := List.isChain_cons_cons.mp hchain
  obtain ⟨hh, hnodup⟩ := List.nodup_cons.mp hr.nodup
  have hal : a ∉ l := (List.nodup_cons.mp hnodup).1
  have hne : h ≠ a := fun he => hh (by simp [he])
  -- the node before the head is the last of the others
  obtain ⟨m', hm'⟩ : ∃ m', a :: l = m' ++ [b] := by
    cases m with
    | nil => simp at hm
    | cons c m => exact ⟨m, (List.cons.inj hm).2⟩
  have hbmem : b ∈ a :: l := hm' ▸ by simp
  have hbh' : b ≠ h := fun he => hh (he ▸ hbmem)
  refine ⟨_, by simp [Links.unlink, Links.setPrev, Links.setNext, hha, hhb, hne]; rfl,
    ⟨hnodup, ?_⟩, ?_, ?_⟩
  · have hkeep := chain_congr (((L.setPrev a (some b)).setNext b (some a)).reset h) hbh
      (fun hl => hh (List.mem_cons_of_mem a hl)) htail
      (fun y hy hyb => by
        have hyh : y ≠ h := fun he => hh (he ▸ hy)
        simp [Links.reset, Links.setNext, Links.setPrev, hyb, hyh])
      (fun y hy => by
        have hyh : y ≠ h := fun he => hh (he ▸ List.mem_cons_of_mem a hy)
        have hya : y ≠ a := fun he => hal (he ▸ hy)
        simp [Links.reset, Links.setNext, Links.setPrev, hyh, hya])
    rw [hm'] at hkeep
    have : (m' ++ b :: [a]).IsChain (Linked _) := List.isChain_split.mpr ⟨hkeep, by
      simp [Linked, Links.reset, Links.setNext, Links.setPrev, hbh', hne.symm]⟩
    rw [← List.cons_append, hm']
    simpa [Links.reset, Links.setNext, Links.setPrev] using this
  · simp [Links.reset, Links.setNext]
  · intro y hy
    simp only [List.mem_cons, not_or] at hy
    have hyb : y ≠ b := by
      rintro rfl
      simp only [List.mem_cons] at hbmem
      tauto
    simp [Links.reset, Links.setNext, Links.setPrev, hy.1, hy.2.1, hyb]

theorem Ring.unlink (hr : Ring L h (l₁ ++ n :: l₂)) :
    ∃ L', L.unlink n = some L' ∧ Ring L' h (l₁ ++ l₂) ∧ L'.next n = none ∧
      Frame L L' (h :: (l₁ ++ n :: l₂)) := by
  cases l₂ with
  | nil =>
    obtain ⟨L', hu, hring, hn, hframe⟩ := Ring.unlink_head (l := l₁) hr.rotate
    refine ⟨L', hu, by simpa using hring, hn, fun x hx => hframe x ?_⟩
    simp only [List.mem_cons, List.mem_append, not_or] at hx ⊢
    tauto
  | cons a l₂ =>
    obtain ⟨L', hu, hring, hn, hframe⟩ := Ring.unlink_head (l := l₂ ++ h :: l₁) hr.rotate
    refine ⟨L', hu, hring.rotate, hn, fun x hx => hframe x ?_⟩
    simp only [List.mem_cons, List.mem_append, not_or] at hx ⊢
    tauto

/-- The head of an empty list may be removed, too. -/
theorem Ring.unlink_alone (hr : Ring L h []) :
    ∃ L', L.unlink h = some L' ∧ Frame L L' [h] := by
  have hself : L.next h = some h ∧ L.prev h = some h := by
    have := hr.chain
    simp only [List.nil_append, List.isChain_cons_cons] at this
    exact this.1
  refine ⟨((L.setPrev h (some h)).setNext h (some h)).reset h,
    by simp [Links.unlink, Links.setPrev, Links.setNext, hself], fun x hx => ?_⟩
  simp only [List.mem_singleton] at hx
  simp [Links.reset, Links.setNext, Links.setPrev, hx]

end Libuo.LinkList
