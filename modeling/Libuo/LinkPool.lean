import Libuo.LinkListRings
import Mathlib.Data.List.Range

/-!
# Pools of list nodes

Each thread keeps the nodes that may be rented in a list of its own, allocates them in
blocks, and takes nodes back into its list wherever they came from.
-/

namespace Libuo.LinkPool
open LinkList

/-- What has a list: a thread its free nodes, and the rest of the program lists of its own. -/
inductive Owner where
  | thread (t : ℕ)
  | list (k : ℕ)
  deriving DecidableEq

/-- A head, or a node of an allocated block. -/
inductive Node where
  | head (o : Owner)
  | item (i : ℕ)
  deriving DecidableEq

/-- The links of all nodes, the number of those allocated, the stack of blocks that each
thread has to hand on when it quits, and the queue in which they wait. -/
structure State where
  links : Links Node
  fresh : ℕ
  stack : ℕ → List ℕ
  queue : List (List ℕ)

def defaultGrow : ℕ := 0x20

/-- The capacity that `init` gives the queue. -/
def queueCapacity : ℕ := 0x10

/-- After `init`, with no thread initialized. -/
def State.init : State := ⟨Links.zero, 0, fun _ => [], []⟩

namespace State

def isThrdInit (s : State) (t : ℕ) : Bool := s.links.isLinked (.head (.thread t))

def thrdInit (s : State) (t : ℕ) : State :=
  if s.isThrdInit t then s
  else
    { s with
      stack := Function.update s.stack t (s.queue.headD [])
      queue := s.queue.tail
      links := s.links.selflink (.head (.thread t)) }

/-- `thrd_quit`, which waits while the queue is full. -/
def thrdQuit (s : State) (t : ℕ) : Option State :=
  if !s.isThrdInit t then some s
  else if s.queue.length < queueCapacity then
    some { s with
      queue := s.queue ++ [s.stack t]
      links := s.links.reset (.head (.thread t)) }
  else none

/-- `calloc`: the nodes of a block are zero-filled. -/
def calloc (L : Links Node) (items count : ℕ) : Links Node :=
  (List.range count).foldl (fun L i => L.reset (.item (items + i))) L

/-- `grow`. The function that its assertion names is not called, so that it always holds. -/
def grow (s : State) (t count : ℕ) : Option State := do
  let items := s.fresh
  let links ← (List.range count).foldlM
    (fun L i => L.link (.head (.thread t)) (.item (items + i))) (calloc s.links items count)
  some { s with
    links
    fresh := items + count
    stack := Function.update s.stack t (s.stack t ++ [items]) }

/-- `rent`. Its condition is a function that is not called either, so that the pool grows
each time. -/
def rent (s : State) (t : ℕ) : Option (Node × State) := do
  let s ← s.grow t defaultGrow
  let link ← s.links.prev (.head (.thread t))
  let links ← s.links.unlink link
  some (link, { s with links })

/-- `return`. -/
def giveBack (s : State) (t : ℕ) (link : Node) : Option State := do
  let links ← s.links.link (.head (.thread t)) link
  some { s with links }

end State

/-- The ring of each owner, from the items of its list; an owner without a list has none. -/
def rings (lists : Owner → Option (List ℕ)) (o : Owner) : List Node :=
  (lists o).elim [] fun l => .head o :: l.map .item

variable {L : Links Node} {lists : Owner → Option (List ℕ)} {o : Owner} {l l₁ l₂ : List ℕ}
  {i t n : ℕ} {s s' : State}

theorem rings_some (h : lists o = some l) : rings lists o = .head o :: l.map .item := by
  rw [rings, h]
  rfl

theorem rings_none (h : lists o = none) : rings lists o = [] := by
  rw [rings, h]
  rfl

theorem head_mem_rings {o' : Owner} :
    .head o ∈ rings lists o' ↔ o = o' ∧ ∃ l, lists o = some l := by
  cases h : lists o' with
  | none =>
    rw [rings_none h]
    simp only [List.not_mem_nil, false_iff, not_and]
    rintro rfl ⟨l, hl⟩
    simp [h] at hl
  | some l =>
    rw [rings_some h]
    simp only [List.mem_cons, Node.head.injEq, List.mem_map, reduceCtorEq, and_false, exists_false,
      or_false, iff_self_and]
    rintro rfl
    exact ⟨l, h⟩

theorem item_mem_rings : .item i ∈ rings lists o ↔ ∃ l, lists o = some l ∧ i ∈ l := by
  cases h : lists o with
  | none => simp [rings_none h]
  | some l => simp [rings_some h]

theorem rings_update (lists : Owner → Option (List ℕ)) (o : Owner) (l : Option (List ℕ)) :
    rings (Function.update lists o l) =
      Function.update (rings lists) o (l.elim [] fun l => .head o :: l.map .item) := by
  funext o'
  by_cases ho : o' = o
  · subst ho
    simp [rings]
  · simp [rings, ho]

/-- An item outside all lists is put before the head, at the end of the list. -/
theorem link_head (h : Rings L (rings lists)) (hl : lists o = some l)
    (hi : ∀ o', .item i ∉ rings lists o') (hfree : L.next (.item i) = none) :
    ∃ L', L.link (.head o) (.item i) = some L' ∧ Frame L L' (.item i :: rings lists o) ∧
      Rings L' (rings (Function.update lists o (some (l ++ [i])))) := by
  obtain ⟨L', hlink, -, hframe, h'⟩ := h.link (head_mem_rings.mpr ⟨rfl, l, hl⟩) hi hfree
  refine ⟨L', hlink, hframe, ?_⟩
  rw [rings_update]
  convert h' using 1
  funext o'
  by_cases ho : o' = o
  · subst ho
    simp [rings_some hl, insertInRing]
  · rw [Function.update_of_ne ho, insertInRing_of_not_mem]
    exact fun hm => ho (head_mem_rings.mp hm).1.symm

/-- An item is put before the first one, at the front of the list. -/
theorem link_front (h : Rings L (rings lists)) (hl : lists o = some l)
    (hi : ∀ o', .item i ∉ rings lists o') (hfree : L.next (.item i) = none) :
    ∃ first L', L.next (.head o) = some first ∧ L.link first (.item i) = some L' ∧
      Frame L L' (.item i :: rings lists o) ∧
      Rings L' (rings (Function.update lists o (some (i :: l)))) := by
  have hring := h.ring (rings_some hl)
  cases l with
  | nil =>
    obtain ⟨L', hlink, hframe, h'⟩ := link_head h hl hi hfree
    exact ⟨.head o, L', (List.isChain_cons_cons.mp hring.chain).1.1, hlink, hframe, h'⟩
  | cons j l =>
    have hj : .item j ∈ rings lists o := item_mem_rings.mpr ⟨j :: l, hl, by simp⟩
    obtain ⟨L', hlink, -, hframe, h'⟩ := h.link hj hi hfree
    refine ⟨.item j, L', (List.isChain_cons_cons.mp hring.chain).1.1, hlink, hframe, ?_⟩
    rw [rings_update]
    convert h' using 1
    funext o'
    by_cases ho : o' = o
    · subst ho
      simp [rings_some hl, insertInRing, insertBefore]
    · rw [Function.update_of_ne ho, insertInRing_of_not_mem]
      exact fun hm => ho (h.disjoint hm hj)

theorem unlink_item (h : Rings L (rings lists)) (hl : lists o = some (l₁ ++ i :: l₂)) :
    ∃ L', L.unlink (.item i) = some L' ∧ L'.next (.item i) = none ∧ Frame L L' (rings lists o) ∧
      Rings L' (rings (Function.update lists o (some (l₁ ++ l₂)))) := by
  have hi : .item i ∈ rings lists o := item_mem_rings.mpr ⟨_, hl, by simp⟩
  obtain ⟨L', hu, hzero, hframe, h'⟩ := h.unlink hi
  refine ⟨L', hu, hzero.1, hframe, ?_⟩
  rw [rings_update]
  convert h' using 1
  funext o'
  by_cases ho : o' = o
  · subst ho
    have hnodup := h.nodup o'
    rw [rings_some hl, List.map_append, List.map_cons] at hnodup ⊢
    rw [Function.update_self, List.erase_cons_tail (by simp), List.erase_append_right,
      List.erase_cons_head]
    · simp
    · intro hm
      have := (List.nodup_cons.mp hnodup).2
      exact (List.nodup_append.mp this).2.2 _ hm _ List.mem_cons_self rfl
  · rw [Function.update_of_ne ho, List.erase_of_not_mem]
    exact fun hm => ho (h.disjoint hm hi)

theorem nodup_of_rings (h : Rings L (rings lists)) (hl : lists o = some l) : l.Nodup := by
  have := h.nodup o
  rw [rings_some hl] at this
  exact (List.nodup_cons.mp this).2.of_map

/-- The items of a list as `next` meets them, from the head back to it. -/
theorem next_items (h : Rings L (rings lists)) (hl : lists o = some l) :
    L.next (.head o) = some ((l.map Node.item).headD (.head o)) ∧
      (l.map Node.item ++ [Node.head o]).IsChain fun x y => L.next x = some y := by
  have hchain := (h.ring (rings_some hl)).chain.imp fun _ _ hab => hab.1
  refine ⟨?_, hchain.tail⟩
  cases l with
  | nil => exact (List.isChain_cons_cons.mp hchain).1
  | cons i l => exact (List.isChain_cons_cons.mp hchain).1

theorem prev_items (h : Rings L (rings lists)) (hl : lists o = some l) :
    L.prev (.head o) = some ((l.reverse.map Node.item).headD (.head o)) ∧
      (l.reverse.map Node.item ++ [Node.head o]).IsChain fun x y => L.prev x = some y := by
  have hchain : (Node.head o :: (l.reverse.map Node.item ++ [Node.head o])).IsChain
      fun x y => L.prev x = some y := by
    have := (h.ring (rings_some hl)).chain.imp fun _ _ hab => hab.2
    rw [← List.isChain_reverse] at this
    simpa using this
  refine ⟨?_, hchain.tail⟩
  cases hr : l.reverse with
  | nil =>
    rw [hr] at hchain
    exact (List.isChain_cons_cons.mp hchain).1
  | cons i r =>
    rw [hr] at hchain
    exact (List.isChain_cons_cons.mp hchain).1

/-- The links are the rings of the lists, whose items have been allocated. -/
structure Inv (s : State) (lists : Owner → Option (List ℕ)) : Prop where
  rings : Rings s.links (rings lists)
  uninit : ∀ t, lists (.thread t) = none →
    s.links.next (.head (.thread t)) = none ∧ s.links.prev (.head (.thread t)) = none
  allocated : ∀ {o l}, lists o = some l → ∀ i ∈ l, i < s.fresh

theorem Inv.isThrdInit (h : Inv s lists) :
    s.isThrdInit t = true ↔ ∃ l, lists (.thread t) = some l := by
  rw [State.isThrdInit, Links.isLinked]
  cases hl : lists (.thread t) with
  | none => simp [(h.uninit t hl).1]
  | some l =>
    obtain ⟨-, b, -, hb⟩ := (h.rings.ring (rings_some hl)).between List.mem_cons_self
    simp [hb.1]

theorem Inv.not_mem (h : Inv s lists) (hi : s.fresh ≤ i) (o : Owner) :
    .item i ∉ LinkPool.rings lists o := by
  intro hm
  obtain ⟨l, hl, hil⟩ := item_mem_rings.mp hm
  exact absurd (h.allocated hl i hil) (by omega)

/-- One list is replaced, and the heads of the other threads stay as they are. -/
theorem Inv.update (h : Inv s lists)
    (hrings : Rings s'.links (LinkPool.rings (Function.update lists o (some l))))
    (hkeep : ∀ t, Owner.thread t ≠ o →
      s'.links.next (.head (.thread t)) = s.links.next (.head (.thread t)) ∧
        s'.links.prev (.head (.thread t)) = s.links.prev (.head (.thread t)))
    (hfresh : s.fresh ≤ s'.fresh) (hl : ∀ i ∈ l, i < s'.fresh) :
    Inv s' (Function.update lists o (some l)) := by
  refine ⟨hrings, fun t ht => ?_, fun {o' l'} ho i hi => ?_⟩
  · have hne : Owner.thread t ≠ o := by
      rintro rfl
      simp at ht
    rw [Function.update_of_ne hne] at ht
    rw [(hkeep t hne).1, (hkeep t hne).2]
    exact h.uninit t ht
  · by_cases ho' : o' = o
    · subst ho'
      rw [Function.update_self, Option.some.injEq] at ho
      exact hl i (ho ▸ hi)
    · rw [Function.update_of_ne ho'] at ho
      exact Nat.lt_of_lt_of_le (h.allocated ho i hi) hfresh

theorem Inv.relink (h : Inv s lists) {L' : Links Node}
    (hrings : Rings L' (LinkPool.rings (Function.update lists o (some l))))
    (hkeep : ∀ t, Owner.thread t ≠ o →
      L'.next (.head (.thread t)) = s.links.next (.head (.thread t)) ∧
        L'.prev (.head (.thread t)) = s.links.prev (.head (.thread t)))
    (hl : ∀ i ∈ l, i < s.fresh) :
    Inv { s with links := L' } (Function.update lists o (some l)) :=
  h.update hrings hkeep (Nat.le_refl _) hl

theorem head_not_mem_rings {o' : Owner} (h : o ≠ o') : Node.head o ∉ LinkPool.rings lists o' :=
  fun hm => h (head_mem_rings.mp hm).1

theorem inv_init : Inv State.init fun _ => none where
  rings := ⟨fun he => by simp [LinkPool.rings] at he, fun hm => by simp [LinkPool.rings] at hm⟩
  uninit _ _ := ⟨rfl, rfl⟩
  allocated hl := by cases hl

theorem thrdInit_spec (h : Inv s lists) (t : ℕ) :
    Inv (s.thrdInit t)
      (Function.update lists (.thread t) (some ((lists (.thread t)).getD []))) := by
  cases hl : lists (.thread t) with
  | some l =>
    rw [State.thrdInit, if_pos (h.isThrdInit.mpr ⟨l, hl⟩), Option.getD_some, ← hl,
      Function.update_eq_self]
    exact h
  | none =>
    have hnot : ¬ s.isThrdInit t = true := fun hinit => by
      obtain ⟨l, hl'⟩ := h.isThrdInit.mp hinit
      simp [hl] at hl'
    have hout : ∀ o, Node.head (.thread t) ∉ LinkPool.rings lists o := fun o hm => by
      obtain ⟨-, l, hl'⟩ := head_mem_rings.mp hm
      simp [hl] at hl'
    rw [State.thrdInit, if_neg hnot, Option.getD_none]
    refine h.update ?_ (fun t' ht' => ?_) (Nat.le_refl _) (by simp)
    · refine h.rings.selflink (i := .thread t) hout (fun o ho => ?_) ?_
      · rw [rings_update, Function.update_of_ne ho]
      · rw [rings_update, Function.update_self]
        rfl
    · have hne : t' ≠ t := by simpa using ht'
      simp [Links.selflink, Links.setNext, Links.setPrev, hne]

theorem thrdQuit_spec (h : Inv s lists) (hquit : s.thrdQuit t = some s') :
    Inv s' (Function.update lists (.thread t) none) ∧ s'.fresh = s.fresh := by
  rw [State.thrdQuit] at hquit
  cases hl : lists (.thread t) with
  | none =>
    have hnot : s.isThrdInit t = false := by
      rw [← Bool.not_eq_true]
      intro hinit
      obtain ⟨l, hl'⟩ := h.isThrdInit.mp hinit
      simp [hl] at hl'
    rw [hnot] at hquit
    obtain rfl := Option.some.inj hquit
    rw [← hl, Function.update_eq_self]
    exact ⟨h, rfl⟩
  | some l =>
    rw [h.isThrdInit.mpr ⟨l, hl⟩] at hquit
    simp only [Bool.not_true, Bool.false_eq_true, if_false] at hquit
    split at hquit
    swap
    · cases hquit
    obtain rfl := Option.some.inj hquit
    refine ⟨⟨?_, fun t' ht' => ?_, fun {o l} ho => ?_⟩, rfl⟩
    · refine h.rings.drop (i := .thread t) (fun x hx => ?_) (fun o ho => ?_) ?_
      · rw [rings_some hl, List.mem_cons, not_or] at hx
        simp [Links.reset, Links.setNext, Links.setPrev, hx.1]
      · rw [rings_update, Function.update_of_ne ho]
      · rw [rings_update, Function.update_self]
        rfl
    · by_cases hne : t' = t
      · subst hne
        simp [Links.reset, Links.setNext, Links.setPrev]
      · rw [Function.update_of_ne (by simpa using hne)] at ht'
        simpa [Links.reset, Links.setNext, Links.setPrev, hne] using h.uninit t' ht'
    · by_cases ho' : o = .thread t
      · subst ho'
        simp at ho
      · rw [Function.update_of_ne ho'] at ho
        exact h.allocated ho

theorem calloc_item (L : Links Node) (items : ℕ) {count j : ℕ} (hj : j < count) :
    (State.calloc L items count).next (.item (items + j)) = none := by
  induction count with
  | zero => omega
  | succ count ih =>
    rw [State.calloc, List.range_succ, List.foldl_append]
    change (Links.reset (State.calloc L items count) _).next _ = none
    by_cases hjc : j = count
    · subst hjc
      simp [Links.reset, Links.setNext]
    · have := ih (by omega)
      simpa [Links.reset, Links.setNext, Links.setPrev, hjc] using this

theorem calloc_frame (L : Links Node) (items count : ℕ) {x : Node}
    (hx : ∀ j < count, x ≠ .item (items + j)) :
    (State.calloc L items count).next x = L.next x ∧
      (State.calloc L items count).prev x = L.prev x := by
  induction count with
  | zero => exact ⟨rfl, rfl⟩
  | succ count ih =>
    have hne := hx count (Nat.lt_succ_self _)
    have ih := ih fun j hj => hx j (Nat.lt_succ_of_lt hj)
    rw [State.calloc, List.range_succ, List.foldl_append]
    change (Links.reset (State.calloc L items count) _).next _ = _ ∧
      (Links.reset (State.calloc L items count) _).prev _ = _
    simpa [Links.reset, Links.setNext, Links.setPrev, hne] using ih

/-- The links of nodes allocated before, outside the list of one owner, stay. -/
def Keeps (L L' : Links Node) (lists : Owner → Option (List ℕ)) (o : Owner) (fresh : ℕ) : Prop :=
  ∀ x ∉ rings lists o, (∀ j ≥ fresh, x ≠ .item j) → L'.next x = L.next x ∧ L'.prev x = L.prev x

/-- The loop of `grow` puts the nodes of a block at the end of the list. -/
theorem link_block {first count : ℕ} (h : Rings L (rings lists)) (hl : lists o = some l)
    (hout : ∀ j < count, ∀ o', .item (first + j) ∉ rings lists o')
    (hfree : ∀ j < count, L.next (.item (first + j)) = none) :
    ∃ L', (List.range count).foldlM (fun L i => L.link (.head o) (.item (first + i))) L = some L' ∧
      Rings L' (rings (Function.update lists o (some (l ++ List.range' first count)))) ∧
      Frame L L' (rings lists o ++ (List.range' first count).map .item) := by
  induction count with
  | zero =>
    refine ⟨L, rfl, ?_, fun x _ => ⟨rfl, rfl⟩⟩
    rwa [List.range'_zero, List.append_nil, ← hl, Function.update_eq_self]
  | succ count ih =>
    obtain ⟨L', hloop, h', hframe⟩ := ih (fun j hj => hout j (by omega))
      (fun j hj => hfree j (by omega))
    have hnew : .item (first + count) ∉ rings lists o ++ (List.range' first count).map .item := by
      simp [hout count (by omega) o]
    have hout' (o' : Owner) : .item (first + count) ∉
        rings (Function.update lists o (some (l ++ List.range' first count))) o' := by
      intro hm
      obtain ⟨l', hl', hmem⟩ := item_mem_rings.mp hm
      by_cases ho : o' = o
      · subst ho
        rw [Function.update_self, Option.some.injEq] at hl'
        subst hl'
        rcases List.mem_append.mp hmem with hold | hblock
        · exact hout count (by omega) o' (item_mem_rings.mpr ⟨l, hl, hold⟩)
        · simp at hblock
      · rw [Function.update_of_ne ho] at hl'
        exact hout count (by omega) o' (item_mem_rings.mpr ⟨l', hl', hmem⟩)
    obtain ⟨L'', hlink, hframe', h''⟩ := link_head h' (Function.update_self ..) hout'
      (by rw [(hframe _ hnew).1]; exact hfree count (by omega))
    refine ⟨L'', ?_, ?_, fun x hx => ?_⟩
    · rw [List.range_succ, List.foldlM_append, hloop]
      simp [hlink]
    · rw [Function.update_idem, List.append_assoc] at h''
      rwa [List.range'_concat, Nat.one_mul]
    · rw [List.range'_concat, Nat.one_mul, List.map_append, ← List.append_assoc] at hx
      simp only [List.mem_append, List.map_cons, List.map_nil, List.mem_singleton, not_or] at hx
      have hx' : x ∉ rings lists o ++ (List.range' first count).map .item := by
        simp only [List.mem_append, not_or]
        exact hx.1
      have hx'' : x ∉ Node.item (first + count) ::
          rings (Function.update lists o (some (l ++ List.range' first count))) o := by
        rw [rings_some (Function.update_self ..), List.map_append]
        rw [rings_some hl] at hx
        simp only [List.mem_cons, List.mem_append, not_or] at hx ⊢
        exact ⟨hx.2, hx.1.1.1, hx.1.1.2, hx.1.2⟩
      rw [(hframe' x hx'').1, (hframe' x hx'').2]
      exact hframe x hx'

theorem grow_spec (h : Inv s lists) (hl : lists (.thread t) = some l) (count : ℕ) :
    ∃ s', s.grow t count = some s' ∧ s'.fresh = s.fresh + count ∧
      Inv s' (Function.update lists (.thread t) (some (l ++ List.range' s.fresh count))) ∧
      Keeps s.links s'.links lists (.thread t) s.fresh := by
  have hrings : Rings (State.calloc s.links s.fresh count) (LinkPool.rings lists) :=
    h.rings.congr fun o x hx => calloc_frame s.links s.fresh count fun j _ he =>
      h.not_mem (Nat.le_add_right s.fresh j) o (he ▸ hx)
  obtain ⟨L', hloop, h', hframe⟩ := link_block hrings hl
    (fun j _ => h.not_mem (Nat.le_add_right _ _)) fun j hj => calloc_item s.links s.fresh hj
  have hkeeps : Keeps s.links L' lists (.thread t) s.fresh := by
    intro x hx hxold
    have hx' : x ∉ LinkPool.rings lists (.thread t) ++ (List.range' s.fresh count).map .item := by
      simp only [List.mem_append, List.mem_map, not_or, not_exists, not_and]
      exact ⟨hx, fun j hj he => hxold j (List.mem_range'_1.mp hj).1 he.symm⟩
    rw [(hframe x hx').1, (hframe x hx').2]
    exact calloc_frame s.links s.fresh count fun j _ => hxold _ (Nat.le_add_right _ _)
  refine ⟨_, by rw [State.grow, hloop]; rfl, rfl, h.update h' (fun t' ht' => ?_)
    (Nat.le_add_right _ _) (fun i hi => ?_), hkeeps⟩
  · exact hkeeps _ (head_not_mem_rings ht') (by simp)
  · change i < s.fresh + count
    rcases List.mem_append.mp hi with hold | hblock
    · exact Nat.lt_add_right _ (h.allocated hl i hold)
    · exact (List.mem_range'_1.mp hblock).2

/-- The items of the lists after one list has been replaced. -/
theorem item_mem_rings_update {o' : Owner} {l : Option (List ℕ)} :
    .item i ∈ LinkPool.rings (Function.update lists o l) o' ↔
      (o' = o ∧ ∃ l', l = some l' ∧ i ∈ l') ∨ (o' ≠ o ∧ .item i ∈ LinkPool.rings lists o') := by
  rw [item_mem_rings]
  by_cases ho : o' = o
  · subst ho
    simp
  · simp [ho, item_mem_rings]

theorem not_mem_rings_append {m : List ℕ} (hout : ∀ o, .item i ∉ LinkPool.rings lists o)
    (hl : lists o = some l) (hi : i ∉ m) (o' : Owner) :
    .item i ∉ LinkPool.rings (Function.update lists o (some (l ++ m))) o' := by
  intro hm
  rcases item_mem_rings_update.mp hm with ⟨-, l', hl', hmem⟩ | ⟨-, hm⟩
  · obtain rfl := Option.some.inj hl'
    rcases List.mem_append.mp hmem with hold | hnew
    · exact hout o (item_mem_rings.mpr ⟨l, hl, hold⟩)
    · exact hi hnew
  · exact hout o' hm

/-- One list is replaced, and the threads with lists are the same. -/
theorem exists_update {t' : ℕ} (hl : ∃ l, lists (.thread t') = some l) (o : Owner) (l : List ℕ) :
    ∃ l', Function.update lists o (some l) (.thread t') = some l' := by
  by_cases ho : .thread t' = o
  · exact ⟨l, by rw [← ho, Function.update_self]⟩
  · rwa [Function.update_of_ne ho]

theorem rent_spec (h : Inv s lists) (hl : lists (.thread t) = some l) :
    ∃ s', s.rent t = some (.item (s.fresh + 31), s') ∧ s'.fresh = s.fresh + 32 ∧
      Inv s' (Function.update lists (.thread t) (some (l ++ List.range' s.fresh 31))) ∧
      s'.links.next (.item (s.fresh + 31)) = none ∧
      (∀ o, .item (s.fresh + 31) ∉ LinkPool.rings
        (Function.update lists (.thread t) (some (l ++ List.range' s.fresh 31))) o) ∧
      Keeps s.links s'.links lists (.thread t) s.fresh := by
  obtain ⟨s₁, hgrow, hfresh, h₁, hkeeps⟩ := grow_spec h hl defaultGrow
  have hblock : l ++ List.range' s.fresh defaultGrow =
      (l ++ List.range' s.fresh 31) ++ (s.fresh + 31) :: [] := by
    rw [defaultGrow, List.range'_concat, ← List.append_assoc, Nat.one_mul]
  rw [hblock] at h₁
  have hlast : s₁.links.prev (.head (.thread t)) = some (.item (s.fresh + 31)) := by
    have hring := h₁.rings.ring (rings_some (Function.update_self ..))
    rw [List.map_append, List.map_singleton] at hring
    exact hring.last.2
  obtain ⟨L', hu, hnone, hframe, h'⟩ := unlink_item h₁.rings (Function.update_self ..)
  rw [Function.update_idem, List.append_nil] at h'
  have hkeeps' : Keeps s.links L' lists (.thread t) s.fresh := by
    intro x hx hxold
    have hx' : x ∉ LinkPool.rings (Function.update lists (.thread t)
        (some (l ++ List.range' s.fresh 31 ++ [s.fresh + 31]))) (.thread t) := by
      rw [rings_some (Function.update_self ..)]
      rw [rings_some hl] at hx
      simp only [List.mem_cons, List.mem_map, List.mem_append, List.mem_range'_1,
        List.not_mem_nil, or_false, not_or, not_exists, not_and] at hx ⊢
      refine ⟨hx.1, fun j hj he => ?_⟩
      rcases hj with (hj | hj) | hj
      · exact hx.2 j hj he
      · exact hxold j hj.1 he.symm
      · exact hxold j (by omega) he.symm
    rw [(hframe x hx').1, (hframe x hx').2]
    exact hkeeps x hx hxold
  refine ⟨{ s₁ with links := L' }, ?_, hfresh, h.update h' (fun t' ht' => ?_)
    (hfresh ▸ Nat.le_add_right _ _) (fun i hi => ?_), hnone, fun o hm => ?_, hkeeps'⟩
  · rw [State.rent, hgrow]
    change (s₁.links.prev (.head (.thread t))).bind _ = _
    rw [hlast]
    change (s₁.links.unlink (.item (s.fresh + 31))).bind _ = _
    rw [hu]
    rfl
  · exact hkeeps' _ (head_not_mem_rings ht') (by simp)
  · exact h₁.allocated (Function.update_self ..) i (List.mem_append_left _ hi)
  · rcases item_mem_rings_update.mp hm with ⟨-, l', hl', hmem⟩ | ⟨-, hm⟩
    · obtain rfl := Option.some.inj hl'
      rcases List.mem_append.mp hmem with hold | hblock
      · have := h.allocated hl _ hold
        omega
      · have := List.mem_range'_1.mp hblock
        omega
    · exact h.not_mem (Nat.le_add_right _ _) o hm

/-- A node in no list comes back, to the list of whichever thread returns it. -/
theorem giveBack_spec (h : Inv s lists) (hl : lists (.thread t) = some l) (hi : i < s.fresh)
    (hout : ∀ o, .item i ∉ LinkPool.rings lists o) (hfree : s.links.next (.item i) = none) :
    ∃ s', s.giveBack t (.item i) = some s' ∧ s'.fresh = s.fresh ∧
      Inv s' (Function.update lists (.thread t) (some (l ++ [i]))) ∧
      Frame s.links s'.links (.item i :: LinkPool.rings lists (.thread t)) := by
  obtain ⟨L', hlink, hframe, h'⟩ := link_head h.rings hl hout hfree
  refine ⟨{ s with links := L' }, by rw [State.giveBack, hlink]; rfl, rfl,
    h.update h' (fun t' ht' => hframe _ ?_) (Nat.le_refl _) (fun j hj => ?_), hframe⟩
  · simpa using head_not_mem_rings ht'
  · rcases List.mem_append.mp hj with hold | hnew
    · exact h.allocated hl j hold
    · exact List.mem_singleton.mp hnew ▸ hi

end Libuo.LinkPool
