import Libuo.LinkPool

/-!
# Nodes belong to one thread at a time

Any number of threads, each initialized and quit any number of times, rent nodes and
return nodes, also those of other threads. Whoever has rented a node may do with its
links as it likes until the node is returned.
-/

namespace Libuo.LinkPool
open LinkList

/-- What happens to a pool. The functions called are those of thread `t`. -/
inductive Event where
  | init (t : ℕ)
  | rented (t : ℕ) (link : Node)
  | returned (t : ℕ) (link : Node)
  | quit (t : ℕ)
  | used
  deriving DecidableEq

/-- The nodes handed out and not returned since; the latest event comes first. -/
def out : List Event → List Node
  | [] => []
  | .rented _ link :: past => link :: out past
  | .returned _ link :: past => (out past).erase link
  | .init _ :: past => out past
  | .quit _ :: past => out past
  | .used :: past => out past

/-- The states after a sequence of events. A call that does not return has no event. -/
inductive Reach : List Event → State → Prop
  | start : Reach [] State.init
  | init {past s} (t : ℕ) : Reach past s → Reach (.init t :: past) (s.thrdInit t)
  | rented {past s s'} {t : ℕ} {link : Node} : Reach past s → s.rent t = some (link, s') →
      Reach (.rented t link :: past) s'
  | returned {past s s'} {t : ℕ} {link : Node} : Reach past s → link ∈ out past →
      s.giveBack t link = some s' → Reach (.returned t link :: past) s'
  | quit {past s s'} {t : ℕ} : Reach past s → s.thrdQuit t = some s' →
      Reach (.quit t :: past) s'
  | used {past s} (L' : Links Node) : Reach past s →
      (∀ x ∉ out past, (∀ k, x ≠ .head (.list k)) →
        L'.next x = s.links.next x ∧ L'.prev x = s.links.prev x) →
      Reach (.used :: past) { s with links := L' }

/-- The free nodes of a thread: those met from its head by `next` before the head again. -/
def FreeList (s : State) (t : ℕ) (l : List ℕ) : Prop :=
  follow s.links.next (l.length + 1) (.head (.thread t)) =
    some (l.map .item ++ [.head (.thread t)])

/-- No node handed out is in a list of a thread. -/
structure Exclusive (past : List Event) (s : State) (lists : Owner → Option (List ℕ)) : Prop where
  inv : Inv s lists
  none_list : ∀ k, lists (.list k) = none
  out_item : ∀ n ∈ out past, ∃ i < s.fresh, n = .item i ∧ ∀ o, n ∉ rings lists o
  out_nodup : (out past).Nodup

variable {past : List Event} {s s' : State} {lists : Owner → Option (List ℕ)} {t i : ℕ}
  {l l' : List ℕ} {link : Node}

theorem FreeList.eq (h : Inv s lists) (hf : FreeList s t l) : lists (.thread t) = some l := by
  cases hl : lists (.thread t) with
  | none =>
    rw [FreeList, follow, (h.uninit t hl).1] at hf
    cases hf
  | some l' =>
    have hread := (h.rings.ring (rings_some hl)).follow_next
    have := follow_unique hf hread (by simp) (by simp)
    rw [List.map_inj_right fun _ _ => Node.item.inj] at this
    rw [this]

theorem freeList_of_eq (h : Inv s lists) (hl : lists (.thread t) = some l) : FreeList s t l := by
  have := (h.rings.ring (rings_some hl)).follow_next
  rwa [List.length_map] at this

/-- Nothing is rented in a thread that has not been initialized. -/
theorem Inv.lists_of_rent (h : Inv s lists) (hrent : s.rent t = some (link, s')) :
    ∃ l, lists (.thread t) = some l := by
  cases hl : lists (.thread t) with
  | some l => exact ⟨l, rfl⟩
  | none =>
    have hprev : (State.calloc s.links s.fresh defaultGrow).prev (.head (.thread t)) = none := by
      rw [(calloc_frame s.links s.fresh defaultGrow (by simp)).2]
      exact (h.uninit t hl).2
    have hgrow : s.grow t defaultGrow = none := by
      have hfail (n : Node) :
          (State.calloc s.links s.fresh defaultGrow).link (.head (.thread t)) n = none := by
        simp [Links.link, hprev]
      have hrange : List.range defaultGrow = 0 :: List.range' 1 31 := rfl
      rw [State.grow]
      simp only [hrange, List.foldlM_cons, hfail]
      rfl
    rw [State.rent, hgrow] at hrent
    cases hrent

theorem Inv.lists_of_giveBack (h : Inv s lists) (hback : s.giveBack t link = some s') :
    ∃ l, lists (.thread t) = some l ∧ s.links.next link = none := by
  simp only [State.giveBack, Links.link, Links.isLinked, Option.bind_eq_bind,
    Option.bind_eq_some_iff] at hback
  obtain ⟨_, ⟨_, hguard, last, hlast, -⟩, -⟩ := hback
  cases hl : lists (.thread t) with
  | none =>
    rw [(h.uninit t hl).2] at hlast
    cases hlast
  | some l =>
    refine ⟨l, rfl, ?_⟩
    simpa using hguard

theorem exclusive_init : Exclusive [] State.init fun _ => none :=
  ⟨inv_init, fun _ => rfl, fun _ hn => absurd hn List.not_mem_nil, List.nodup_nil⟩

theorem Exclusive.init (h : Exclusive past s lists) (t : ℕ) :
    ∃ lists', Exclusive (.init t :: past) (s.thrdInit t) lists' := by
  have hfresh : (s.thrdInit t).fresh = s.fresh := by
    rw [State.thrdInit]
    split <;> rfl
  refine ⟨_, thrdInit_spec h.inv t, fun k => by simpa using h.none_list k, fun n hn => ?_,
    h.out_nodup⟩
  obtain ⟨i, hi, rfl, hout⟩ := h.out_item n hn
  refine ⟨i, hfresh ▸ hi, rfl, fun o hm => ?_⟩
  rcases item_mem_rings_update.mp hm with ⟨rfl, l, hl, hil⟩ | ⟨-, hm⟩
  · cases hlists : lists (.thread t) with
    | none => simp [hlists, ← Option.some.inj hl] at hil
    | some l₀ =>
      rw [hlists, Option.getD_some, Option.some.injEq] at hl
      exact hout _ (item_mem_rings.mpr ⟨l₀, hlists, hl ▸ hil⟩)
  · exact hout o hm

theorem Exclusive.rented (h : Exclusive past s lists) (hrent : s.rent t = some (link, s')) :
    link ∉ out past ∧ ∃ lists', Exclusive (.rented t link :: past) s' lists' := by
  obtain ⟨l, hl⟩ := h.inv.lists_of_rent hrent
  obtain ⟨s₁, hspec, hfresh, hinv, -, hout, -⟩ := rent_spec h.inv hl
  rw [hspec, Option.some.injEq, Prod.mk.injEq] at hrent
  obtain ⟨rfl, rfl⟩ := hrent
  have hnew : .item (s.fresh + 31) ∉ out past := fun hm => by
    obtain ⟨i, hi, he, -⟩ := h.out_item _ hm
    rw [Node.item.injEq] at he
    omega
  -- the node is new, and none of those handed out is in the new block
  refine ⟨hnew, _, hinv, fun k => by simpa using h.none_list k, fun n hn => ?_,
    List.nodup_cons.mpr ⟨hnew, h.out_nodup⟩⟩
  rcases List.mem_cons.mp hn with rfl | hn
  · exact ⟨_, by omega, rfl, hout⟩
  · obtain ⟨i, hi, rfl, hout⟩ := h.out_item n hn
    refine ⟨i, by omega, rfl, not_mem_rings_append hout hl fun hblock => ?_⟩
    have := List.mem_range'_1.mp hblock
    omega

theorem Exclusive.returned (h : Exclusive past s lists) (hlink : link ∈ out past)
    (hback : s.giveBack t link = some s') :
    ∃ lists', Exclusive (.returned t link :: past) s' lists' := by
  obtain ⟨l, hl, hfree⟩ := h.inv.lists_of_giveBack hback
  obtain ⟨i, hi, rfl, hout⟩ := h.out_item link hlink
  obtain ⟨s₁, hspec, hfresh, hinv, -⟩ := giveBack_spec h.inv hl hi hout hfree
  rw [hspec, Option.some.injEq] at hback
  subst hback
  refine ⟨_, hinv, fun k => by simpa using h.none_list k, fun n hn => ?_, h.out_nodup.erase _⟩
  obtain ⟨hne, hn⟩ := h.out_nodup.mem_erase_iff.mp hn
  obtain ⟨j, hj, rfl, hout'⟩ := h.out_item n hn
  exact ⟨j, hfresh ▸ hj, rfl, not_mem_rings_append hout' hl fun hnew =>
    hne (by rw [List.mem_singleton.mp hnew])⟩

theorem Exclusive.quit (h : Exclusive past s lists) (hquit : s.thrdQuit t = some s') :
    ∃ lists', Exclusive (.quit t :: past) s' lists' := by
  obtain ⟨hinv, hfresh⟩ := thrdQuit_spec h.inv hquit
  refine ⟨_, hinv, fun k => by simpa using h.none_list k, fun n hn => ?_, h.out_nodup⟩
  obtain ⟨i, hi, rfl, hout⟩ := h.out_item n hn
  refine ⟨i, hfresh ▸ hi, rfl, fun o hm => ?_⟩
  rcases item_mem_rings_update.mp hm with ⟨-, l', hl', -⟩ | ⟨-, hm⟩
  · cases hl'
  · exact hout o hm

theorem Exclusive.used (h : Exclusive past s lists) {L' : Links Node}
    (hsame : ∀ x ∉ out past, (∀ k, x ≠ .head (.list k)) →
      L'.next x = s.links.next x ∧ L'.prev x = s.links.prev x) :
    Exclusive (.used :: past) { s with links := L' } lists := by
  refine ⟨⟨h.inv.rings.congr fun o x hx => hsame x ?_ ?_, fun t ht => ?_, h.inv.allocated⟩,
    h.none_list, h.out_item, h.out_nodup⟩
  · intro hxout
    obtain ⟨i, -, -, hout⟩ := h.out_item x hxout
    exact hout o hx
  · rintro k rfl
    obtain ⟨-, l, hl⟩ := head_mem_rings.mp hx
    simp [h.none_list k] at hl
  · have hhead : Node.head (.thread t) ∉ out past := fun hm => by
      obtain ⟨i, -, he, -⟩ := h.out_item _ hm
      cases he
    rw [(hsame _ hhead (by simp)).1, (hsame _ hhead (by simp)).2]
    exact h.inv.uninit t ht

theorem Reach.exclusive (h : Reach past s) : ∃ lists, Exclusive past s lists := by
  induction h with
  | start => exact ⟨_, exclusive_init⟩
  | init t _ ih =>
    obtain ⟨lists, ih⟩ := ih
    exact ih.init t
  | rented _ hrent ih =>
    obtain ⟨lists, ih⟩ := ih
    exact (ih.rented hrent).2
  | returned _ hlink hback ih =>
    obtain ⟨lists, ih⟩ := ih
    exact ih.returned hlink hback
  | quit _ hquit ih =>
    obtain ⟨lists, ih⟩ := ih
    exact ih.quit hquit
  | used L' _ hsame ih =>
    obtain ⟨lists, ih⟩ := ih
    exact ⟨lists, ih.used hsame⟩

/-- In every state that is reached, the nodes handed out and the lists of the threads are
all disjoint, every initialized thread can rent, and what it gets is not handed out. -/
theorem reach_exclusive (h : Reach past s) :
    (out past).Nodup ∧
    (∀ t l, FreeList s t l → l.Nodup ∧ (∀ i ∈ l, .item i ∉ out past) ∧
      ∀ t' l', t' ≠ t → FreeList s t' l' → ∀ i ∈ l, i ∉ l') ∧
    (∀ t, s.isThrdInit t = true →
      (∃ l, FreeList s t l) ∧ ∃ link s', s.rent t = some (link, s')) ∧
    ∀ t link s', s.rent t = some (link, s') → link ∉ out past := by
  obtain ⟨lists, hex⟩ := h.exclusive
  refine ⟨hex.out_nodup, fun t l hf => ?_, fun t ht => ?_, fun t link s' hrent =>
    (hex.rented hrent).1⟩
  · have hl := hf.eq hex.inv
    refine ⟨nodup_of_rings hex.inv.rings hl, fun i hi hm => ?_, fun t' l' hne hf' i hi hi' => ?_⟩
    · obtain ⟨j, -, -, hout⟩ := hex.out_item _ hm
      exact hout _ (item_mem_rings.mpr ⟨l, hl, hi⟩)
    · have hl' := hf'.eq hex.inv
      have := hex.inv.rings.disjoint (item_mem_rings.mpr ⟨l, hl, hi⟩)
        (item_mem_rings.mpr ⟨l', hl', hi'⟩)
      exact hne (Owner.thread.inj this).symm
  · obtain ⟨l, hl⟩ := hex.inv.isThrdInit.mp ht
    obtain ⟨s', hrent, -⟩ := rent_spec hex.inv hl
    exact ⟨⟨l, freeList_of_eq hex.inv hl⟩, _, s', hrent⟩

/-- One thread rents a node, and another one returns it. -/
def handover : List Event := [.returned 1 (.item 31), .rented 0 (.item 31), .init 1, .init 0]

theorem reach_exclusive_handover :
    ∃ s, Reach handover s ∧ (out handover).Nodup ∧
      (∀ t l, FreeList s t l → l.Nodup ∧ (∀ i ∈ l, .item i ∉ out handover) ∧
        ∀ t' l', t' ≠ t → FreeList s t' l' → ∀ i ∈ l, i ∉ l') ∧
      (∀ t, s.isThrdInit t = true →
        (∃ l, FreeList s t l) ∧ ∃ link s', s.rent t = some (link, s')) ∧
      ∀ t link s', s.rent t = some (link, s') → link ∉ out handover := by
  have hinit := thrdInit_spec (thrdInit_spec inv_init 0) 1
  have hfresh : ((State.init.thrdInit 0).thrdInit 1).fresh = 0 := rfl
  obtain ⟨s, hrent, hfresh', hinv, hfree, hout, -⟩ := rent_spec (t := 0) (l := []) hinit rfl
  rw [hfresh] at hrent hfresh' hinv hfree hout
  obtain ⟨s', hback, -⟩ := giveBack_spec (t := 1) (l := []) hinv rfl (by omega) hout hfree
  have hreach : Reach handover s' :=
    (((Reach.start.init 0).init 1).rented hrent).returned (by decide) hback
  exact ⟨s', hreach, reach_exclusive hreach⟩

end Libuo.LinkPool
