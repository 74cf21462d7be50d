import Libuo.LinkList

/-!
# Disjoint rings

Any number of rings over one set of nodes. A node is linked before another one in its
ring or unlinked from it, and every other ring stays as it is. A ring is read from its
head, or from the node behind once the head itself has been unlinked.
-/

namespace Libuo.LinkList

variable {N ι : Type} {L L' : Links N} {R R' : ι → List N} {h n p x : N} {l m : List N} {i : ι}

/-- The rings are disjoint. -/
structure Rings (L : Links N) (R : ι → List N) : Prop where
  ring : ∀ {i h l}, R i = h :: l → Ring L h l
  disjoint : ∀ {i j x}, x ∈ R i → x ∈ R j → i = j

/-- A node in none of the rings is zero-filled. -/
def Zeroed (L : Links N) (R : ι → List N) : Prop :=
  ∀ x, (∀ i, x ∉ R i) → L.next x = none ∧ L.prev x = none

/-- A ring none of whose nodes has changed. -/
theorem Ring.congr (hr : Ring L h l)
    (hsame : ∀ x ∈ h :: l, L'.next x = L.next x ∧ L'.prev x = L.prev x) : Ring L' h l := by
  refine ⟨hr.nodup, List.IsChain.imp_of_mem_imp (fun x y hx hy hxy => ?_) hr.chain⟩
  have hmem {z : N} (hz : z ∈ h :: (l ++ [h])) : z ∈ h :: l := by
    simp only [List.mem_cons, List.mem_append, List.not_mem_nil, or_false] at hz ⊢
    tauto
  exact ⟨(hsame x (hmem hx)).1.trans hxy.1, (hsame y (hmem hy)).2.trans hxy.2⟩

/-- Every node of a ring stands between two others, or between itself. -/
theorem Ring.between (hr : Ring L h l) (hx : x ∈ h :: l) :
    ∃ a b, Linked L a x ∧ Linked L x b := by
  obtain ⟨l', hr'⟩ : ∃ l', Ring L x l' := by
    rcases List.mem_cons.mp hx with rfl | hx
    · exact ⟨l, hr⟩
    · obtain ⟨l₁, l₂, rfl⟩ := List.append_of_mem hx
      exact ⟨_, hr.rotate⟩
  obtain ⟨-, a, -, ha, -⟩ := hr'.exists_last
  cases l' with
  | nil => exact ⟨a, x, ha, (List.isChain_cons_cons.mp hr'.chain).1⟩
  | cons b l' => exact ⟨a, b, ha, (List.isChain_cons_cons.mp hr'.chain).1⟩

theorem Ring.last {b : N} (hr : Ring L h (l ++ [b])) : Linked L b h := by
  have : (h :: l ++ b :: [h]).IsChain (Linked L) := by simpa using hr.chain
  exact (List.isChain_cons_cons.mp (List.isChain_split.mp this).2).1

theorem Rings.nodup (h : Rings L R) (i : ι) : (R i).Nodup := by
  cases hi : R i with
  | nil => exact List.nodup_nil
  | cons a l => exact (h.ring hi).nodup

/-- One ring is changed within the nodes `m`: its own, and others that are in no ring. -/
theorem Rings.change (h : Rings L R) (hother : ∀ j ≠ i, R' j = R j) (hframe : Frame L L' m)
    (hm : ∀ x ∈ m, x ∈ R i ∨ ∀ j, x ∉ R j) (hring : ∀ {a l}, R' i = a :: l → Ring L' a l)
    (hsub : ∀ x ∈ R' i, x ∈ m) : Rings L' R' := by
  have hout {j : ι} (hj : j ≠ i) {x : N} (hx : x ∈ R j) : x ∉ m := fun hxm => by
    rcases hm x hxm with hi | hnone
    · exact hj (h.disjoint hx hi)
    · exact hnone j hx
  refine ⟨fun {j a l} hj => ?_, fun {j k x} hj hk => ?_⟩
  · by_cases hji : j = i
    · subst hji
      exact hring hj
    · rw [hother j hji] at hj
      exact (h.ring hj).congr fun x hx => hframe x (hout hji (hj ▸ hx))
  · by_cases hji : j = i
    · subst hji
      by_contra hne
      rw [hother k (Ne.symm hne)] at hk
      exact hout (Ne.symm hne) hk (hsub x hj)
    · rw [hother j hji] at hj
      by_cases hki : k = i
      · subst hki
        exact absurd (hsub x hk) (hout hji hj)
      · rw [hother k hki] at hk
        exact h.disjoint hj hk

/-- A ring is given up: whatever becomes of its nodes, the others stay. -/
theorem Rings.drop (h : Rings L R) (hf : Frame L L' (R i)) (hother : ∀ j ≠ i, R' j = R j)
    (hnil : R' i = []) : Rings L' R' :=
  h.change (i := i) hother hf (fun x hx => .inl hx) (fun he => by simp [hnil] at he)
    (by simp [hnil])

theorem Rings.congr (h : Rings L R)
    (hsame : ∀ i, ∀ x ∈ R i, L'.next x = L.next x ∧ L'.prev x = L.prev x) : Rings L' R :=
  ⟨fun {i _ _} hi => (h.ring hi).congr fun x hx => hsame i x (hi ▸ hx), h.disjoint⟩

theorem rings_heads {heads : ι → N} (hinj : ∀ i j, heads i = heads j → i = j)
    (hself : ∀ i, L.next (heads i) = some (heads i) ∧ L.prev (heads i) = some (heads i)) :
    Rings L fun i => [heads i] where
  ring {i h l} hi := by
    obtain ⟨rfl, rfl⟩ := List.cons.inj hi
    exact ⟨by simp, by simpa [Linked] using hself i⟩
  disjoint {i j x} hi hj := by
    rw [List.mem_singleton] at hi hj
    exact hinj i j (hi.symm.trans hj)

/-- What holds of the rings at all times: for every node in one,
`link == link->next->prev && link == link->prev->next`, and `prev` reads the reverse. -/
structure Consistent (L : Links N) (R : ι → List N) : Prop where
  between : ∀ i, ∀ x ∈ R i, ∃ a b, L.prev x = some a ∧ L.next a = some x ∧
    L.next x = some b ∧ L.prev b = some x
  reads : ∀ i h l, R i = h :: l → follow L.next (l.length + 1) h = some (l ++ [h]) ∧
    follow L.prev (l.length + 1) h = some (l.reverse ++ [h])
  nodup : ∀ i, (R i).Nodup
  disjoint : ∀ i j x, x ∈ R i → x ∈ R j → i = j
  zero : ∀ x, (∀ i, x ∉ R i) → L.next x = none ∧ L.prev x = none

theorem Rings.consistent (h : Rings L R) (hzero : Zeroed L R) : Consistent L R where
  between i x hx := by
    obtain ⟨c, l, hi⟩ := List.exists_cons_of_ne_nil (List.ne_nil_of_mem hx)
    obtain ⟨a, b, ha, hb⟩ := (h.ring hi).between (hi ▸ hx)
    exact ⟨a, b, ha.2, ha.1, hb.1, hb.2⟩
  reads i a l hi := ⟨(h.ring hi).follow_next, (h.ring hi).follow_prev⟩
  nodup := h.nodup
  disjoint i j x := h.disjoint
  zero := hzero

variable [DecidableEq N]

/-- A node is put before the first `pos`. -/
def insertBefore (pos n : N) : List N → List N
  | [] => []
  | x :: l => if x = pos then n :: x :: l else x :: insertBefore pos n l

/-- The same in a ring, where the first node comes after the last. -/
def insertInRing (pos n : N) : List N → List N
  | [] => []
  | h :: l => if h = pos then h :: (l ++ [n]) else h :: insertBefore pos n l

theorem insertBefore_of_not_mem (hp : p ∉ l) : insertBefore p n l = l := by
  induction l with
  | nil => rfl
  | cons x l ih =>
    simp only [List.mem_cons, not_or] at hp
    rw [insertBefore, if_neg (Ne.symm hp.1), ih hp.2]

theorem insertInRing_of_not_mem (hp : p ∉ l) : insertInRing p n l = l := by
  cases l with
  | nil => rfl
  | cons x l =>
    simp only [List.mem_cons, not_or] at hp
    rw [insertInRing, if_neg (Ne.symm hp.1), insertBefore_of_not_mem hp.2]

theorem insertBefore_append {l₁ l₂ : List N} (hp : p ∉ l₁) :
    insertBefore p n (l₁ ++ p :: l₂) = l₁ ++ n :: p :: l₂ := by
  induction l₁ with
  | nil => simp [insertBefore]
  | cons x l₁ ih =>
    simp only [List.mem_cons, not_or] at hp
    rw [List.cons_append, insertBefore, if_neg (Ne.symm hp.1), ih hp.2, List.cons_append]

theorem mem_insertBefore (hp : p ∈ l) : x ∈ insertBefore p n l ↔ x = n ∨ x ∈ l := by
  obtain ⟨l₁, l₂, rfl, hp₁⟩ := List.eq_append_cons_of_mem hp
  rw [insertBefore_append hp₁]
  simp only [List.mem_append, List.mem_cons]
  tauto

theorem mem_insertInRing (hp : p ∈ l) : x ∈ insertInRing p n l ↔ x = n ∨ x ∈ l := by
  cases l with
  | nil => exact absurd hp List.not_mem_nil
  | cons h l =>
    rw [insertInRing]
    split
    · simp only [List.mem_cons, List.mem_append, List.not_mem_nil, or_false]
      tauto
    · rename_i hne
      have hp : p ∈ l := (List.mem_cons.mp hp).resolve_left (Ne.symm hne)
      rw [List.mem_cons, mem_insertBefore hp, List.mem_cons]
      tauto

/-- Without the new node the ring is the old one. -/
theorem erase_insertInRing (hn : n ∉ l) : (insertInRing p n l).erase n = l := by
  by_cases hp : p ∈ l
  swap
  · rw [insertInRing_of_not_mem hp, List.erase_of_not_mem hn]
  cases l with
  | nil => rfl
  | cons h l =>
    simp only [List.mem_cons, not_or] at hn
    rw [insertInRing]
    split
    · rw [List.erase_cons_tail (by simpa using Ne.symm hn.1), List.erase_append_right _ hn.2]
      simp
    · rename_i hne
      have hp : p ∈ l := (List.mem_cons.mp hp).resolve_left (Ne.symm hne)
      obtain ⟨l₁, l₂, rfl, hp₁⟩ := List.eq_append_cons_of_mem hp
      simp only [List.mem_append, not_or] at hn
      rw [insertBefore_append hp₁, List.erase_cons_tail (by simpa using Ne.symm hn.1),
        List.erase_append_right _ hn.2.1, List.erase_cons_head]

theorem unlink_zero (hu : L.unlink n = some L') : L'.next n = none ∧ L'.prev n = none := by
  simp only [Links.unlink, Option.bind_eq_bind, Option.bind_eq_some_iff] at hu
  obtain ⟨a, -, b, -, hu⟩ := hu
  obtain rfl := Option.some.inj hu
  simp [Links.reset, Links.setNext, Links.setPrev]

/-- A new node comes into the ring before `p`. -/
theorem Ring.insert (hr : Ring L h l) (hp : p ∈ h :: l) (hn : n ∉ h :: l)
    (hfree : L.next n = none) :
    ∃ L', L.link p n = some L' ∧ Linked L' n p ∧ Frame L L' (n :: h :: l) ∧
      ∀ {a l'}, insertInRing p n (h :: l) = a :: l' → Ring L' a l' := by
  rw [insertInRing]
  by_cases hph : h = p
  · subst hph
    obtain ⟨L', hlink, hring, hframe⟩ := hr.link hn hfree
    refine ⟨L', hlink, hring.last, hframe, fun {a l'} he => ?_⟩
    rw [if_pos rfl, List.cons.injEq] at he
    obtain ⟨rfl, rfl⟩ := he
    exact hring
  · have hpl : p ∈ l := (List.mem_cons.mp hp).resolve_left (Ne.symm hph)
    obtain ⟨l₁, l₂, rfl, hp₁⟩ := List.eq_append_cons_of_mem hpl
    obtain ⟨L', hlink, hring, hframe⟩ := hr.rotate.link (n := n) (fun hmem => hn (by
      simp only [List.mem_cons, List.mem_append] at hmem ⊢
      tauto)) hfree
    refine ⟨L', hlink, hring.last, fun x hx => hframe x fun hmem => hx ?_, fun {a l'} he => ?_⟩
    · simp only [List.mem_cons, List.mem_append] at hmem ⊢
      tauto
    · rw [if_neg hph, insertBefore_append hp₁, List.cons.injEq] at he
      obtain ⟨rfl, rfl⟩ := he
      have hring : Ring L' p (l₂ ++ h :: (l₁ ++ [n])) := by simpa using hring
      simpa using hring.rotate

theorem Rings.link (h : Rings L R) (hp : p ∈ R i) (hn : ∀ j, n ∉ R j)
    (hfree : L.next n = none) :
    ∃ L', L.link p n = some L' ∧ Linked L' n p ∧ Frame L L' (n :: R i) ∧
      Rings L' fun j => insertInRing p n (R j) := by
  obtain ⟨a, l, hi⟩ := List.exists_cons_of_ne_nil (List.ne_nil_of_mem hp)
  obtain ⟨L', hlink, hlinked, hframe, hring⟩ :=
    (h.ring hi).insert (hi ▸ hp) (hi ▸ hn i) hfree
  rw [← hi] at hframe hring
  refine ⟨L', hlink, hlinked, hframe, h.change (i := i) (fun j hj => ?_) hframe ?_ hring ?_⟩
  · exact insertInRing_of_not_mem fun hpj => hj (h.disjoint hpj hp)
  · simp only [List.mem_cons]
    rintro x (rfl | hx)
    · exact .inr hn
    · exact .inl hx
  · intro x hx
    exact List.mem_cons.mpr ((mem_insertInRing hp).mp hx)

theorem Rings.unlink (h : Rings L R) (hn : n ∈ R i) :
    ∃ L', L.unlink n = some L' ∧ (L'.next n = none ∧ L'.prev n = none) ∧ Frame L L' (R i) ∧
      Rings L' fun j => (R j).erase n := by
  obtain ⟨a, l, hi⟩ := List.exists_cons_of_ne_nil (List.ne_nil_of_mem hn)
  have hr := h.ring hi
  obtain ⟨L', hu, hframe, hring⟩ : ∃ L', L.unlink n = some L' ∧ Frame L L' (R i) ∧
      ∀ {b l'}, (R i).erase n = b :: l' → Ring L' b l' := by
    rw [hi] at hn ⊢
    by_cases ha : a = n
    · subst ha
      rw [List.erase_cons_head]
      cases l with
      | nil =>
        obtain ⟨L', hu, hframe⟩ := hr.unlink_alone
        exact ⟨L', hu, hframe, fun he => by cases he⟩
      | cons b l =>
        obtain ⟨L', hu, hring, -, hframe⟩ := hr.unlink_head
        refine ⟨L', hu, hframe, fun he => ?_⟩
        obtain ⟨rfl, rfl⟩ := List.cons.inj he
        exact hring
    · have hnl : n ∈ l := (List.mem_cons.mp hn).resolve_left (Ne.symm ha)
      obtain ⟨l₁, l₂, rfl, hn₁⟩ := List.eq_append_cons_of_mem hnl
      obtain ⟨L', hu, hring, -, hframe⟩ := hr.unlink
      refine ⟨L', hu, hframe, fun he => ?_⟩
      rw [List.erase_cons_tail (by simpa using ha), List.erase_append_right _ hn₁,
        List.erase_cons_head] at he
      obtain ⟨rfl, rfl⟩ := List.cons.inj he
      exact hring
  exact ⟨L', hu, unlink_zero hu, hframe, h.change (i := i)
    (fun j hj => List.erase_of_not_mem fun hnj => hj (h.disjoint hnj hn)) hframe
    (fun x hx => .inl hx) hring (fun x hx => List.mem_of_mem_erase hx)⟩

/-- A node in no ring becomes the head of a ring of its own. -/
theorem Rings.selflink (h : Rings L R) (hn : ∀ j, n ∉ R j)
    (hother : ∀ j ≠ i, R' j = R j) (hnew : R' i = [n]) : Rings (L.selflink n) R' := by
  refine h.change (i := i) (m := [n]) hother (fun x hx => ?_) (fun x hx => .inr ?_)
    (fun {a l} he => ?_) (by simp [hnew])
  · simp only [List.mem_singleton] at hx
    simp [Links.selflink, Links.setNext, Links.setPrev, hx]
  · exact List.mem_singleton.mp hx ▸ hn
  · rw [hnew, List.cons.injEq] at he
    obtain ⟨rfl, rfl⟩ := he
    exact ring_selflink L n

inductive RingOp (N : Type) where
  | link (pos n : N)
  | unlink (n : N)

def RingOp.apply (L : Links N) : RingOp N → Option (Links N)
  | .link pos n => L.link pos n
  | .unlink n => L.unlink n

def runOps (L : Links N) (ops : List (RingOp N)) : Option (Links N) := ops.foldlM RingOp.apply L

/-- The rings after an operation. -/
def RingOp.after (R : ι → List N) : RingOp N → ι → List N
  | .link pos n, i => insertInRing pos n (R i)
  | .unlink n, i => (R i).erase n

/-- A node is linked in no ring when it is linked before one in some ring, and it is in some
ring when it is unlinked. -/
def RingOp.Legal (R : ι → List N) : RingOp N → Prop
  | .link pos n => (∃ i, pos ∈ R i) ∧ ∀ i, n ∉ R i
  | .unlink n => ∃ i, n ∈ R i

def LegalFrom (R : ι → List N) : List (RingOp N) → Prop
  | [] => True
  | op :: ops => op.Legal R ∧ LegalFrom (op.after R) ops

/-- What one operation changes: a node has come in just before `pos`, or has left and is
zero-filled; without it every ring is the same. -/
def RingOp.Changes (R R' : ι → List N) (L' : Links N) : RingOp N → Prop
  | .link pos n => Linked L' n pos ∧ (∃ i, pos ∈ R i ∧ n ∈ R' i) ∧ ∀ i, (R' i).erase n = R i
  | .unlink n => (L'.next n = none ∧ L'.prev n = none) ∧ (∀ i, n ∉ R' i) ∧
      ∀ i, R' i = (R i).erase n

theorem Rings.apply (h : Rings L R) (hz : Zeroed L R) {op : RingOp N} (hop : op.Legal R) :
    ∃ L', op.apply L = some L' ∧ Rings L' (op.after R) ∧ Zeroed L' (op.after R) ∧
      op.Changes R (op.after R) L' := by
  cases op with
  | link pos n =>
    obtain ⟨⟨i, hi⟩, hn⟩ := hop
    obtain ⟨L', hlink, hlinked, hframe, h'⟩ := h.link hi hn (hz n hn).1
    refine ⟨L', hlink, h', fun x hx => ?_, hlinked, ⟨i, hi, (mem_insertInRing hi).mpr (.inl rfl)⟩,
      fun j => erase_insertInRing (hn j)⟩
    have hold (j : ι) (hj : x ∈ R j) : False := by
      by_cases hp : pos ∈ R j
      · exact hx j ((mem_insertInRing hp).mpr (.inr hj))
      · refine hx j ?_
        rwa [RingOp.after, insertInRing_of_not_mem hp]
    have hxn : x ≠ n := fun he => hx i ((mem_insertInRing hi).mpr (.inl he))
    have hsame := hframe x fun hmem => (List.mem_cons.mp hmem).elim hxn (hold i)
    rw [hsame.1, hsame.2]
    exact hz x hold
  | unlink n =>
    obtain ⟨i, hi⟩ := hop
    obtain ⟨L', hu, hzero, hframe, h'⟩ := h.unlink hi
    refine ⟨L', hu, h', fun x hx => ?_, hzero, fun j hj => (h.nodup j).not_mem_erase hj,
      fun _ => rfl⟩
    by_cases hxn : x = n
    · exact hxn ▸ hzero
    · have hold (j : ι) (hj : x ∈ R j) : False := hx j ((List.mem_erase_of_ne hxn).mpr hj)
      rw [(hframe x (hold i)).1, (hframe x (hold i)).2]
      exact hz x hold

theorem Rings.runOps {ops : List (RingOp N)} (h : Rings L R) (hz : Zeroed L R)
    (hops : LegalFrom R ops) :
    ∃ L', runOps L ops = some L' ∧ Rings L' (ops.foldl RingOp.after R) ∧
      Zeroed L' (ops.foldl RingOp.after R) := by
  induction ops generalizing L R with
  | nil => exact ⟨L, rfl, h, hz⟩
  | cons op ops ih =>
    obtain ⟨L', hop, h', hz', -⟩ := h.apply hz hops.1
    obtain ⟨L'', hr, h''⟩ := ih h' hz' hops.2
    refine ⟨L'', ?_, h''⟩
    rw [LinkList.runOps, List.foldlM_cons, hop]
    exact hr

/-- Whatever is linked and unlinked in any number of rings, the rings stay consistent, and
each further operation changes nothing but the place of its node. -/
theorem rings_run {heads : ι → N} (hinj : ∀ i j, heads i = heads j → i = j)
    (hself : ∀ i, L.next (heads i) = some (heads i) ∧ L.prev (heads i) = some (heads i))
    (hzero : ∀ x, (∀ i, heads i ≠ x) → L.next x = none ∧ L.prev x = none)
    {ops : List (RingOp N)} (hops : LegalFrom (fun i => [heads i]) ops) :
    ∃ L' R', runOps L ops = some L' ∧ R' = ops.foldl RingOp.after (fun i => [heads i]) ∧
      Consistent L' R' ∧ ∀ op : RingOp N, op.Legal R' → ∃ L'', op.apply L' = some L'' ∧
        Consistent L'' (op.after R') ∧ op.Changes R' (op.after R') L'' := by
  have hz : Zeroed L fun i => [heads i] := fun x hx => hzero x fun i hi => hx i (by simp [hi])
  obtain ⟨L', hr, h', hz'⟩ := (rings_heads hinj hself).runOps hz hops
  refine ⟨L', _, hr, rfl, h'.consistent hz', fun op hop => ?_⟩
  obtain ⟨L'', hop', h'', hz'', hchanges⟩ := h'.apply hz' hop
  exact ⟨L'', hop', h''.consistent hz'', hchanges⟩

/-- Two nodes linked before a head, and the first of them moved into the ring of another. -/
theorem rings_run_moved :
    ∃ L' R', runOps ((Links.zero.selflink 0).selflink 1)
        [.link 0 2, .link 0 3, .unlink 2, .link 1 2, .link 3 4] = some L' ∧
      R' = (fun i : Fin 2 => if i = 0 then [0, 4, 3] else [1, 2]) ∧
      Consistent L' R' ∧ ∀ op : RingOp ℕ, op.Legal R' → ∃ L'', op.apply L' = some L'' ∧
        Consistent L'' (op.after R') ∧ op.Changes R' (op.after R') L'' := by
  have hrings := @rings_run ℕ (Fin 2) ((Links.zero.selflink 0).selflink 1) _ (fun i => i.val)
    (fun i j => Fin.ext) (by decide)
    (fun x hx => by
      have h₀ := hx 0
      have h₁ := hx 1
      simp only [Fin.val_zero, Fin.val_one] at h₀ h₁
      simp [Links.selflink, Links.setNext, Links.setPrev, Links.zero, Ne.symm h₀, Ne.symm h₁])
    [.link 0 2, .link 0 3, .unlink 2, .link 1 2, .link 3 4]
    (by simp only [LegalFrom, RingOp.Legal, RingOp.after]; decide)
  obtain ⟨L', R', hr, hR, hrest⟩ := hrings
  exact ⟨L', R', hr, hR.trans (funext (Fin.forall_fin_two.mpr ⟨rfl, rfl⟩)), hrest⟩

end Libuo.LinkList
