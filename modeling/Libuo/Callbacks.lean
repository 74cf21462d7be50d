import Libuo.LinkPool
import Libuo.Stack
import Mathlib.Data.List.Perm.Subperm

/-!
# Callbacks

A callback is a stack and a list of functions. The callbacks and the nodes of their
lists are rented from pools, each call being made in some thread.

The operations have the names of the source without `uo_cb_`.
-/

namespace Libuo.Callbacks
open LinkList LinkPool

variable {P F : Type}

/-- `uo_cb_linkpool`, `uo_cb_func_linkpool` with the lists of all callbacks, the functions in
the nodes of these lists, and the stack of each callback. A callback is named by its node. -/
structure Heap (P F : Type) where
  cbs : State
  funcs : State
  item : ℕ → Option F
  stack : ℕ → Stack P

namespace Heap

def create (h : Heap P F) (t : ℕ) : Option (ℕ × Heap P F) := do
  let (link, cbs) ← h.cbs.rent t
  match link with
  | .item c =>
    some (c, { h with
      cbs
      stack := Function.update h.stack c (Stack.create 0)
      funcs := { h.funcs with links := h.funcs.links.selflink (.head (.list c)) } })
  | .head _ => none

/-- A node for a function is rented, and linked before the one that `pos` finds. -/
def addFunc (pos : Links Node → Option Node) (h : Heap P F) (t : ℕ) (f : F) :
    Option (Heap P F) := do
  let (link, funcs) ← h.funcs.rent t
  match link with
  | .item i =>
    let before ← pos funcs.links
    let links ← funcs.links.link before link
    some { h with funcs := { funcs with links }, item := Function.update h.item i (some f) }
  | .head _ => none

def prependFunc (h : Heap P F) (t c : ℕ) (f : F) : Option (Heap P F) :=
  h.addFunc (fun L => L.next (.head (.list c))) t f

def appendFunc (h : Heap P F) (t c : ℕ) (f : F) : Option (Heap P F) :=
  h.addFunc (fun _ => some (.head (.list c))) t f

/-- `while (link != &cb->funclist)`: the functions met in one direction are added, for at most
`fuel` tests. -/
def copyFuncs (dir : Links Node → Node → Option Node)
    (add : Heap P F → F → Option (Heap P F)) (head : Node) :
    ℕ → Node → Heap P F → Option (Heap P F)
  | 0, _, _ => none
  | fuel + 1, link, h =>
    if link = head then some h
    else
      match link with
      | .item i => do
        let f ← h.item i
        let h ← add h f
        let link ← dir h.funcs.links link
        copyFuncs dir add head fuel link h
      | .head _ => none

/-- More tests than there are nodes. -/
def fuel (h : Heap P F) : ℕ := h.funcs.fresh + 1

/-- What a copy of `stack.count` items from `stack.items` reads. -/
def source (s : Stack P) : Option (List P) :=
  if s.count ≤ s.items.length then (s.items.take s.count).mapM id else none

def clone (h : Heap P F) (t cb : ℕ) : Option (ℕ × Heap P F) := do
  let (c, h) ← h.create t
  let items ← source (h.stack cb)
  let stack ← (h.stack c).pushArr items
  let h := { h with stack := Function.update h.stack c stack }
  let link ← h.funcs.links.next (.head (.list cb))
  let h ← copyFuncs Links.next (fun h f => h.appendFunc t c f) (.head (.list cb)) h.fuel link h
  some (c, h)

def prependCb (h : Heap P F) (t cb before : ℕ) : Option (Heap P F) := do
  let items ← source (h.stack before)
  let stack ← (h.stack cb).pushArr items
  let h := { h with stack := Function.update h.stack cb stack }
  let link ← h.funcs.links.prev (.head (.list before))
  copyFuncs Links.prev (fun h f => h.prependFunc t cb f) (.head (.list before)) h.fuel link h

def appendCb (h : Heap P F) (t cb after : ℕ) : Option (Heap P F) := do
  let items ← source (h.stack after)
  let stack ← (h.stack cb).insertArr 0 items
  let h := { h with stack := Function.update h.stack cb stack }
  let link ← h.funcs.links.next (.head (.list after))
  copyFuncs Links.next (fun h f => h.appendFunc t cb f) (.head (.list after)) h.fuel link h

/-- The node of a function is unlinked and returned. -/
def dropFunc (h : Heap P F) (t : ℕ) (link : Node) : Option (Heap P F) := do
  let links ← h.funcs.links.unlink link
  let funcs ← { h.funcs with links }.giveBack t link
  some { h with funcs }

/-- `while (!uo_linklist_is_empty(&cb->funclist))`, for at most `fuel` tests. -/
def dropFuncs (t c : ℕ) : ℕ → Heap P F → Option (Heap P F)
  | 0, _ => none
  | fuel + 1, h => do
    let first ← h.funcs.links.next (.head (.list c))
    if first = .head (.list c) then some h
    else
      let h ← h.dropFunc t first
      dropFuncs t c fuel h

def destroy (h : Heap P F) (t c : ℕ) : Option (Heap P F) := do
  let h ← dropFuncs t c h.fuel h
  let cbs ← h.cbs.giveBack t (.item c)
  some { h with cbs }

/-- `uo_cb_invoke`, as far as the call of the function that it returns. -/
def invoke (h : Heap P F) (t c : ℕ) : Option (Option F × Heap P F) := do
  let first ← h.funcs.links.next (.head (.list c))
  match first with
  | .item i =>
    let f ← h.item i
    let h ← h.dropFunc t first
    some (some f, h)
  | .head _ =>
    let h ← h.destroy t c
    some (none, h)

def stackPush (h : Heap P F) (c : ℕ) (item : P) : Option (Heap P F) := do
  let stack ← (h.stack c).push item
  some { h with stack := Function.update h.stack c stack }

def stackPop (h : Heap P F) (c : ℕ) : Option (P × Heap P F) := do
  let (item, stack) ← (h.stack c).pop
  some (item, { h with stack := Function.update h.stack c stack })

def stackIndex (h : Heap P F) (c : ℕ) (index : ℤ) : Option P := (h.stack c).index index

end Heap

/-- The items of a stack, the top being the last, and the functions in order. -/
structure Contents (P F : Type) where
  items : List P
  funcs : List F

namespace Contents

/-- The functions of the second callback come after those of the first one, and its items
below the items of the first one. -/
instance : Append (Contents P F) := ⟨fun A B => ⟨B.items ++ A.items, A.funcs ++ B.funcs⟩⟩

def empty : Contents P F := ⟨[], []⟩

variable (A B C : Contents P F)

@[simp] theorem items_append : (A ++ B).items = B.items ++ A.items := rfl

@[simp] theorem funcs_append : (A ++ B).funcs = A.funcs ++ B.funcs := rfl

theorem append_assoc : A ++ B ++ C = A ++ (B ++ C) := by
  change Contents.mk _ _ = Contents.mk _ _
  simp

theorem append_empty : A ++ empty = A := by
  change Contents.mk _ _ = A
  simp [empty]

theorem empty_append : empty ++ A = A := by
  change Contents.mk _ _ = A
  simp [empty]

end Contents

/-- The callbacks in use, with their contents, in a program with the initialized threads `T`.
The items of the lists of the two pools are given. -/
structure Inv (T : ℕ → Prop) (h : Heap P F) (cbLists lists : Owner → Option (List ℕ))
    (m : ℕ → Option (Contents P F)) : Prop where
  cbs : LinkPool.Inv h.cbs cbLists
  funcs : LinkPool.Inv h.funcs lists
  ready : ∀ t, T t → (∃ l, cbLists (.thread t) = some l) ∧ ∃ l, lists (.thread t) = some l
  rented : ∀ c, m c ≠ none →
    c < h.cbs.fresh ∧ h.cbs.links.next (.item c) = none ∧ ∀ o, .item c ∉ rings cbLists o
  stack : ∀ {c C}, m c = some C → (h.stack c).Inv C.items
  list : ∀ {c C}, m c = some C → ∃ l, lists (.list c) = some l ∧ l.map h.item = C.funcs.map some
  unused : ∀ {c}, m c = none → lists (.list c) = none

/-- These callbacks are in use, with these contents. -/
def Represents (T : ℕ → Prop) (h : Heap P F) (m : ℕ → Option (Contents P F)) : Prop :=
  ∃ cbLists lists, Inv T h cbLists lists m

variable {T : ℕ → Prop} {h : Heap P F} {cbLists lists : Owner → Option (List ℕ)}
  {m : ℕ → Option (Contents P F)} {t c : ℕ} {C : Contents P F}

/-- The stack of one callback is replaced. -/
theorem Inv.setStack (hinv : Inv T h cbLists lists m) (hc : m c = some C) {s : Stack P}
    {items : List P} (hs : s.Inv items) :
    Inv T { h with stack := Function.update h.stack c s } cbLists lists
      (Function.update m c (some { C with items })) := by
  refine ⟨hinv.cbs, hinv.funcs, hinv.ready, fun c' hc' => ?_, fun {c' C'} hc' => ?_,
    fun {c' C'} hc' => ?_, fun {c'} hc' => ?_⟩ <;> by_cases hcc : c' = c
  · exact hinv.rented c' (by simp [hcc, hc])
  · exact hinv.rented c' (by rwa [Function.update_of_ne hcc] at hc')
  · subst hcc
    rw [Function.update_self, Option.some.injEq] at hc'
    simpa [← hc'] using hs
  · rw [Function.update_of_ne hcc] at hc'
    simpa [hcc] using hinv.stack hc'
  · subst hcc
    rw [Function.update_self, Option.some.injEq] at hc'
    simpa [← hc'] using hinv.list hc
  · exact hinv.list (by rwa [Function.update_of_ne hcc] at hc')
  · simp [hcc] at hc'
  · exact hinv.unused (by rwa [Function.update_of_ne hcc] at hc')

/-- The list of one callback is replaced, and functions are set in new nodes. -/
theorem Inv.setFuncs (hinv : Inv T h cbLists lists m) (hc : m c = some C) {s : State}
    {item : ℕ → Option F} {lists' : Owner → Option (List ℕ)} {l : List ℕ} {funcs : List F}
    (hs : LinkPool.Inv s lists')
    (hready : ∀ t l, lists (.thread t) = some l → ∃ l', lists' (.thread t) = some l')
    (hother : ∀ k ≠ c, lists' (.list k) = lists (.list k))
    (hitem : ∀ i < h.funcs.fresh, item i = h.item i)
    (hl : lists' (.list c) = some l) (hfuncs : l.map item = funcs.map some) :
    Inv T { h with funcs := s, item } cbLists lists'
      (Function.update m c (some { C with funcs })) := by
  refine ⟨hinv.cbs, hs, fun t ht => ⟨(hinv.ready t ht).1, ?_⟩, fun c' hc' => ?_,
    fun {c' C'} hc' => ?_, fun {c' C'} hc' => ?_, fun {c'} hc' => ?_⟩
  · obtain ⟨l, hl⟩ := (hinv.ready t ht).2
    exact hready t l hl
  all_goals by_cases hcc : c' = c
  · exact hinv.rented c' (by simp [hcc, hc])
  · exact hinv.rented c' (by rwa [Function.update_of_ne hcc] at hc')
  · subst hcc
    rw [Function.update_self, Option.some.injEq] at hc'
    simpa [← hc'] using hinv.stack hc
  · exact hinv.stack (by rwa [Function.update_of_ne hcc] at hc')
  · subst hcc
    rw [Function.update_self, Option.some.injEq] at hc'
    exact ⟨l, hl, by simpa [← hc'] using hfuncs⟩
  · rw [Function.update_of_ne hcc] at hc'
    obtain ⟨l', hl', hmap⟩ := hinv.list hc'
    refine ⟨l', (hother c' hcc).trans hl', (List.map_congr_left fun i hi => ?_).trans hmap⟩
    exact hitem i (hinv.funcs.allocated hl' i hi)
  · simp [hcc] at hc'
  · rw [Function.update_of_ne hcc] at hc'
    exact (hother c' hcc).trans (hinv.unused hc')

/-- An element put at one end of a list. -/
def put {α : Type} (front : Bool) (x : α) (l : List α) : List α :=
  if front then x :: l else l ++ [x]

theorem mem_put {α : Type} {front : Bool} {x y : α} {l : List α} :
    y ∈ put front x l ↔ y = x ∨ y ∈ l := by
  cases front <;> simp [put, or_comm]

theorem map_put {α β : Type} (g : α → β) (front : Bool) (x : α) (l : List α) :
    (put front x l).map g = put front (g x) (l.map g) := by
  cases front <;> simp [put]

/-- A new function at one end of the list, where the node is linked before what `pos` finds. -/
theorem Inv.addFunc (hinv : Inv T h cbLists lists m) (ht : T t) (hc : m c = some C)
    {pos : Links Node → Option Node} (front : Bool)
    (hpos : ∀ {L lists l i}, Rings L (rings lists) → lists (.list c) = some l →
      (∀ o, .item i ∉ rings lists o) → L.next (.item i) = none →
      ∃ before L', pos L = some before ∧ L.link before (.item i) = some L' ∧
        Frame L L' (.item i :: rings lists (.list c)) ∧
        Rings L' (rings (Function.update lists (.list c) (some (put front i l))))) (f : F) :
    ∃ h' lists', h.addFunc pos t f = some h' ∧
      Inv T h' cbLists lists'
        (Function.update m c (some { C with funcs := put front f C.funcs })) ∧
      ∀ k ≠ c, lists' (.list k) = lists (.list k) := by
  obtain ⟨lt, hlt⟩ := (hinv.ready t ht).2
  obtain ⟨l, hl, hmap⟩ := hinv.list hc
  obtain ⟨s, hrent, hfresh, hs, hnext, hout, -⟩ := rent_spec hinv.funcs hlt
  have hl' : Function.update lists (.thread t) (some (lt ++ List.range' h.funcs.fresh 31))
      (.list c) = some l := by simpa using hl
  obtain ⟨before, L', hbefore, hlink, hframe, hrings⟩ := hpos hs.rings hl' hout hnext
  have hs' := hs.relink hrings
    (fun t' ht' => hframe _ (by simpa using head_not_mem_rings ht')) (fun i hi => by
      rcases mem_put.mp hi with rfl | hold
      · exact hfresh ▸ Nat.add_lt_add_left (by decide) _
      · exact hs.allocated hl' i hold)
  refine ⟨{ h with
    funcs := { s with links := L' }
    item := Function.update h.item (h.funcs.fresh + 31) (some f) }, _, ?_, hinv.setFuncs hc
    (l := put front (h.funcs.fresh + 31) l) hs' (fun t' l' hl' => ?_) (fun k hk => ?_)
    (fun i hi => ?_) (by simp) ?_, fun k hk => ?_⟩
  · rw [Heap.addFunc, hrent]
    change (pos s.links).bind _ = _
    rw [hbefore]
    change (s.links.link before (.item (h.funcs.fresh + 31))).bind _ = _
    rw [hlink]
    rfl
  · rw [Function.update_of_ne (by simp)]
    exact exists_update ⟨l', hl'⟩ _ _
  · simp [hk]
  · rw [Function.update_of_ne (by omega)]
  · rw [map_put, map_put, ← hmap, Function.update_self]
    congr 1
    refine List.map_congr_left fun i hi => ?_
    have := hinv.funcs.allocated hl i hi
    rw [Function.update_of_ne (by omega)]
  · simp [hk]

theorem Inv.appendFunc (hinv : Inv T h cbLists lists m) (ht : T t) (hc : m c = some C) (f : F) :
    ∃ h' lists', h.appendFunc t c f = some h' ∧
      Inv T h' cbLists lists' (Function.update m c (some { C with funcs := C.funcs ++ [f] })) ∧
      ∀ k ≠ c, lists' (.list k) = lists (.list k) :=
  hinv.addFunc ht hc false (fun hr hl hi hfree => ⟨_, link_head hr hl hi hfree |>.imp
    fun _ hL => ⟨rfl, hL⟩⟩) f

theorem Inv.prependFunc (hinv : Inv T h cbLists lists m) (ht : T t) (hc : m c = some C) (f : F) :
    ∃ h' lists', h.prependFunc t c f = some h' ∧
      Inv T h' cbLists lists' (Function.update m c (some { C with funcs := f :: C.funcs })) ∧
      ∀ k ≠ c, lists' (.list k) = lists (.list k) :=
  hinv.addFunc ht hc true link_front f

/-- Functions read from the nodes on a way to a head that nothing changes. -/
theorem copyFuncs_spec (dir : Links Node → Node → Option Node)
    (add : Heap P F → F → Option (Heap P F)) {o : Owner} (I : Heap P F → List F → Prop)
    (hadd : ∀ {h done} f, I h done → ∃ h', add h f = some h' ∧ I h' (done ++ [f]))
    {r : List ℕ} (funcs : List F)
    (hread : ∀ {h done}, I h done → r.map h.item = funcs.map some ∧
      (r.map Node.item ++ [Node.head o]).IsChain fun x y => dir h.funcs.links x = some y)
    {fuel : ℕ} (hfuel : r.length < fuel) (done : List F) (hI : I h done) :
    ∃ h', Heap.copyFuncs dir add (.head o) fuel ((r.map Node.item).headD (.head o)) h =
        some h' ∧
      I h' (done ++ funcs) := by
  induction r generalizing funcs fuel done h with
  | nil =>
    obtain ⟨fuel, rfl⟩ : ∃ n, fuel = n + 1 := ⟨fuel - 1, by omega⟩
    have hnil : funcs = [] := by simpa using (hread hI).1.symm
    exact ⟨h, by simp [Heap.copyFuncs], by simpa [hnil] using hI⟩
  | cons j r ih =>
    obtain ⟨fuel, rfl⟩ : ∃ n, fuel = n + 1 := ⟨fuel - 1, by omega⟩
    obtain ⟨f, funcs, rfl⟩ : ∃ f fs, funcs = f :: fs := by
      cases funcs with
      | nil => simpa using (hread hI).1
      | cons f fs => exact ⟨f, fs, rfl⟩
    have hitem : h.item j = some f := by simpa using (hread hI).1 |> List.cons.inj |>.1
    obtain ⟨h₁, hadd₁, hI₁⟩ := hadd f hI
    have hnext : dir h₁.funcs.links (.item j) = some ((r.map Node.item).headD (.head o)) := by
      have := (hread hI₁).2
      cases r with
      | nil => simpa using this
      | cons k r => exact (List.isChain_cons_cons.mp this).1
    obtain ⟨h', hloop, hI'⟩ := ih funcs (fun hI => by
      have hall := hread hI
      exact ⟨(List.cons.inj hall.1).2, hall.2.tail⟩) (by simpa using hfuel) _ hI₁
    refine ⟨h', ?_, by simpa using hI'⟩
    change Heap.copyFuncs dir add (.head o) (fuel + 1) (.item j) h = _
    rw [Heap.copyFuncs, if_neg (by simp)]
    change ((h.item j).bind fun f =>
      (add h f).bind fun h => (dir h.funcs.links (.item j)).bind _) = _
    rw [hitem]
    change ((add h f).bind fun h => (dir h.funcs.links (.item j)).bind _) = _
    rw [hadd₁]
    change ((dir h₁.funcs.links (.item j)).bind _) = _
    rw [hnext]
    exact hloop

theorem source_eq {s : Stack P} {items : List P} (hs : s.Inv items) :
    Heap.source s = some items := by
  have hmap (l : List P) : (l.map some).mapM id = some l := by
    induction l with
    | nil => rfl
    | cons x l ih => simp [ih]
  rw [Heap.source, if_pos (by rw [hs.count, hs.cells]; exact hs.le), hs.count, hs.holds.take]
  exact hmap items

/-- A list has fewer nodes than there are tests. -/
theorem Inv.length_lt_fuel (hinv : Inv T h cbLists lists m) {o : Owner} {l : List ℕ}
    (hl : lists o = some l) : l.length < h.fuel := by
  have hsub : l.Subperm (List.range h.funcs.fresh) :=
    List.subperm_of_subset (nodup_of_rings hinv.funcs.rings hl) fun i hi =>
      List.mem_range.mpr (hinv.funcs.allocated hl i hi)
  have := hsub.length_le
  rw [List.length_range] at this
  exact Nat.lt_succ_of_le this

variable {b : ℕ} {B : Contents P F}

/-- The functions of one callback are appended to those of another. -/
theorem Inv.copyNext (hinv : Inv T h cbLists lists m) (ht : T t) (hc : m c = some C)
    (hb : m b = some B) (hbc : b ≠ c) :
    ∃ link h' lists', h.funcs.links.next (.head (.list b)) = some link ∧
      Heap.copyFuncs Links.next (fun h f => h.appendFunc t c f) (.head (.list b)) h.fuel link h =
        some h' ∧
      Inv T h' cbLists lists'
        (Function.update m c (some { C with funcs := C.funcs ++ B.funcs })) := by
  obtain ⟨l, hl, -⟩ := hinv.list hb
  obtain ⟨h', hloop, lists', hinv', -⟩ := copyFuncs_spec Links.next
    (fun h f => h.appendFunc t c f) (o := .list b) (r := l)
    (fun h done => ∃ lists', Inv T h cbLists lists'
      (Function.update m c (some { C with funcs := C.funcs ++ done })) ∧
      lists' (.list b) = some l)
    (fun f ⟨lists', hI, hl'⟩ => by
      obtain ⟨h', lists'', hadd, hI', hother⟩ := hI.appendFunc ht (Function.update_self ..) f
      rw [Function.update_idem, List.append_assoc] at hI'
      exact ⟨h', hadd, lists'', hI', (hother b hbc).trans hl'⟩)
    B.funcs (fun ⟨lists', hI, hl'⟩ => by
      obtain ⟨l', hl'', hmap⟩ := hI.list (c := b) (by rw [Function.update_of_ne hbc, hb])
      obtain rfl := Option.some.inj (hl'.symm.trans hl'')
      exact ⟨hmap, (next_items hI.funcs.rings hl').2⟩)
    (hinv.length_lt_fuel hl) []
    ⟨lists, by rw [List.append_nil, ← hc, Function.update_eq_self]; exact hinv, hl⟩
  exact ⟨_, h', lists', (next_items hinv.funcs.rings hl).1, hloop, hinv'⟩

/-- Functions are prepended, from the last to the first. -/
theorem Inv.copyPrev (hinv : Inv T h cbLists lists m) (ht : T t) (hc : m c = some C)
    (hb : m b = some B) (hbc : b ≠ c) :
    ∃ link h' lists', h.funcs.links.prev (.head (.list b)) = some link ∧
      Heap.copyFuncs Links.prev (fun h f => h.prependFunc t c f) (.head (.list b)) h.fuel link h =
        some h' ∧
      Inv T h' cbLists lists'
        (Function.update m c (some { C with funcs := B.funcs ++ C.funcs })) := by
  obtain ⟨l, hl, -⟩ := hinv.list hb
  obtain ⟨h', hloop, lists', hinv', -⟩ := copyFuncs_spec Links.prev
    (fun h f => h.prependFunc t c f) (o := .list b) (r := l.reverse)
    (fun h done => ∃ lists', Inv T h cbLists lists'
      (Function.update m c (some { C with funcs := done.reverse ++ C.funcs })) ∧
      lists' (.list b) = some l)
    (fun f ⟨lists', hI, hl'⟩ => by
      obtain ⟨h', lists'', hadd, hI', hother⟩ := hI.prependFunc ht (Function.update_self ..) f
      rw [Function.update_idem] at hI'
      exact ⟨h', hadd, lists'', by simpa using hI', (hother b hbc).trans hl'⟩)
    B.funcs.reverse (fun ⟨lists', hI, hl'⟩ => by
      obtain ⟨l', hl'', hmap⟩ := hI.list (c := b) (by rw [Function.update_of_ne hbc, hb])
      obtain rfl := Option.some.inj (hl'.symm.trans hl'')
      exact ⟨by rw [List.map_reverse, hmap, List.map_reverse],
        (prev_items hI.funcs.rings hl').2⟩)
    (by rw [List.length_reverse]; exact hinv.length_lt_fuel hl) []
    ⟨lists, by rw [List.reverse_nil, List.nil_append, ← hc, Function.update_eq_self]; exact hinv,
      hl⟩
  exact ⟨_, h', lists', (prev_items hinv.funcs.rings hl).1, hloop, by simpa using hinv'⟩

theorem Inv.appendCb (hinv : Inv T h cbLists lists m) (ht : T t) (hc : m c = some C)
    (hb : m b = some B) (hbc : b ≠ c) (hroom : C.items.length + B.items.length ≤ 2 ^ 60) :
    ∃ h' lists', h.appendCb t c b = some h' ∧
      Inv T h' cbLists lists' (Function.update m c (some (C ++ B))) := by
  obtain ⟨s, hinsert, hs⟩ := Stack.insertArr_bottom (hinv.stack hc) _ hroom
  obtain ⟨link, h', lists', hfirst, hcopy, hinv'⟩ := (hinv.setStack hc hs).copyNext ht
    (Function.update_self ..) ((Function.update_of_ne hbc ..).trans hb) hbc
  rw [Function.update_idem] at hinv'
  refine ⟨h', lists', ?_, hinv'⟩
  rw [Heap.appendCb, source_eq (hinv.stack hb), Option.bind_eq_bind, Option.bind_some, hinsert,
    Option.bind_eq_bind, Option.bind_some]
  change ((h.funcs.links.next (.head (.list b))).bind _) = _
  rw [hfirst]
  exact hcopy

theorem Inv.prependCb (hinv : Inv T h cbLists lists m) (ht : T t) (hc : m c = some C)
    (hb : m b = some B) (hbc : b ≠ c) (hroom : C.items.length + B.items.length ≤ 2 ^ 60) :
    ∃ h' lists', h.prependCb t c b = some h' ∧
      Inv T h' cbLists lists' (Function.update m c (some (B ++ C))) := by
  obtain ⟨s, hpush, hs⟩ := Stack.pushArr_spec (hinv.stack hc) _ hroom
  obtain ⟨link, h', lists', hfirst, hcopy, hinv'⟩ := (hinv.setStack hc hs).copyPrev ht
    (Function.update_self ..) ((Function.update_of_ne hbc ..).trans hb) hbc
  rw [Function.update_idem] at hinv'
  refine ⟨h', lists', ?_, hinv'⟩
  rw [Heap.prependCb, source_eq (hinv.stack hb)]
  change (((h.stack c).pushArr B.items).bind _) = _
  rw [hpush]
  change ((h.funcs.links.prev (.head (.list b))).bind _) = _
  rw [hfirst]
  exact hcopy

/-- A callback that is created was not in use. -/
theorem Inv.create (hinv : Inv T h cbLists lists m) (ht : T t) :
    ∃ c h' cbLists' lists', h.create t = some (c, h') ∧ m c = none ∧
      Inv T h' cbLists' lists' (Function.update m c (some Contents.empty)) := by
  obtain ⟨lt, hlt⟩ := (hinv.ready t ht).1
  obtain ⟨s, hrent, hfresh, hs, hnext, hout, hkeeps⟩ := rent_spec hinv.cbs hlt
  obtain ⟨c, hcdef⟩ : ∃ c, c = h.cbs.fresh + 31 := ⟨_, rfl⟩
  rw [← hcdef] at hrent hnext hout
  have hnew : m c = none := by
    by_contra hne
    have := (hinv.rented c hne).1
    omega
  have hhead : ∀ o, Node.head (.list c) ∉ rings lists o := fun o hm => by
    obtain ⟨-, l, hl⟩ := head_mem_rings.mp hm
    rw [hinv.unused hnew] at hl
    cases hl
  have hfuncs := hinv.funcs.relink (o := .list c) (l := [])
    (hinv.funcs.rings.selflink (i := .list c) hhead
      (fun o ho => by rw [rings_update, Function.update_of_ne ho])
      (by rw [rings_update, Function.update_self]; rfl))
    (fun t' _ => by simp [Links.selflink, Links.setNext, Links.setPrev]) (by simp)
  refine ⟨c, _, _, _, by rw [Heap.create, hrent]; rfl, hnew, hs, hfuncs, fun t' ht' => ⟨?_, ?_⟩,
    fun c' hc' => ?_, fun {c' C'} hc' => ?_, fun {c' C'} hc' => ?_, fun {c'} hc' => ?_⟩
  · exact exists_update (hinv.ready t' ht').1 _ _
  · exact exists_update (hinv.ready t' ht').2 _ _
  all_goals by_cases hcc : c' = c
  · subst hcc
    exact ⟨by simp only; omega, hnext, hout⟩
  · obtain ⟨hlt', hfree, hout'⟩ := hinv.rented c' (by rwa [Function.update_of_ne hcc] at hc')
    refine ⟨by simp only; omega, ?_, not_mem_rings_append hout' hlt fun hblock => ?_⟩
    · rw [(hkeeps _ (hout' _) fun j hj he => by rw [Node.item.injEq] at he; omega).1]
      exact hfree
    · have := List.mem_range'_1.mp hblock
      omega
  · subst hcc
    rw [Function.update_self, Option.some.injEq] at hc'
    simpa [← hc', Contents.empty] using Stack.create_inv (n := 0) (by omega)
  · rw [Function.update_of_ne hcc] at hc'
    simpa [hcc] using hinv.stack hc'
  · subst hcc
    rw [Function.update_self, Option.some.injEq] at hc'
    exact ⟨[], by simp, by simp [← hc', Contents.empty]⟩
  · rw [Function.update_of_ne hcc] at hc'
    obtain ⟨l, hl, hmap⟩ := hinv.list hc'
    exact ⟨l, by simpa [hcc] using hl, hmap⟩
  · simp [hcc] at hc'
  · rw [Function.update_of_ne hcc] at hc'
    simpa [hcc] using hinv.unused hc'

theorem Inv.clone (hinv : Inv T h cbLists lists m) (ht : T t) (hb : m b = some B) :
    ∃ c h' cbLists' lists', h.clone t b = some (c, h') ∧ m c = none ∧
      Inv T h' cbLists' lists' (Function.update m c (some B)) := by
  obtain ⟨c, h₁, cbLists', lists₁, hcreate, hnew, hinv₁⟩ := hinv.create ht
  have hbc : b ≠ c := by
    rintro rfl
    rw [hnew] at hb
    cases hb
  have hb₁ : Function.update m c (some Contents.empty) b = some B :=
    (Function.update_of_ne hbc ..).trans hb
  have hlen := (hinv₁.stack hb₁).le.trans (hinv₁.stack hb₁).capacity_le
  have hc₁ : Function.update m c (some Contents.empty) c = some (Contents.empty : Contents P F) :=
    Function.update_self ..
  obtain ⟨s, hpush, hs⟩ := Stack.pushArr_spec (hinv₁.stack hc₁) B.items
    (by simpa [Contents.empty] using hlen)
  obtain ⟨link, h', lists', hfirst, hcopy, hinv'⟩ := (hinv₁.setStack hc₁ hs).copyNext ht
    (Function.update_self ..) ((Function.update_of_ne hbc ..).trans hb₁) hbc
  rw [Function.update_idem, Function.update_idem] at hinv'
  refine ⟨c, h', cbLists', lists', ?_, hnew, hinv'⟩
  rw [Heap.clone, hcreate]
  change ((Heap.source (h₁.stack b)).bind _) = _
  rw [source_eq (hinv₁.stack hb₁)]
  change (((h₁.stack c).pushArr B.items).bind _) = _
  rw [hpush]
  change ((h₁.funcs.links.next (.head (.list b))).bind _) = _
  rw [hfirst]
  change ((Heap.copyFuncs Links.next _ _ _ link _).bind _) = _
  rw [hcopy]
  rfl

/-- The first function leaves the list. -/
theorem Inv.dropFunc (hinv : Inv T h cbLists lists m) (ht : T t) (hc : m c = some C) {f : F}
    {funcs : List F} (hf : C.funcs = f :: funcs) :
    ∃ i h' lists', h.funcs.links.next (.head (.list c)) = some (.item i) ∧ h.item i = some f ∧
      h.dropFunc t (.item i) = some h' ∧ h'.cbs = h.cbs ∧ h'.fuel = h.fuel ∧
      Inv T h' cbLists lists' (Function.update m c (some { C with funcs })) := by
  obtain ⟨lt, hlt⟩ := (hinv.ready t ht).2
  obtain ⟨l, hl, hmap⟩ := hinv.list hc
  obtain ⟨i, l, rfl⟩ : ∃ i l', l = i :: l' := by
    cases l with
    | nil => simp [hf] at hmap
    | cons i l => exact ⟨i, l, rfl⟩
  rw [hf, List.map_cons, List.map_cons, List.cons.injEq] at hmap
  obtain ⟨L', hu, hfree, hframe, hrings⟩ := @unlink_item _ _ _ [] _ _ hinv.funcs.rings hl
  have hin := hinv.funcs.allocated hl
  have hs := hinv.funcs.relink hrings (fun t' ht' => hframe _ (head_not_mem_rings ht'))
    (fun j hj => hin j (List.mem_cons_of_mem i hj))
  have hnodup := nodup_of_rings hinv.funcs.rings hl
  obtain ⟨s, hback, hfresh, hs', -⟩ := giveBack_spec (t := t) (l := lt) (i := i) hs
    (by simpa using hlt)
    (hin i (by simp)) (fun o hm => by
      rcases item_mem_rings_update.mp hm with ⟨-, l', hl', hmem⟩ | ⟨ho, hm⟩
      · obtain rfl := Option.some.inj hl'
        exact (List.nodup_cons.mp hnodup).1 hmem
      · exact ho (hinv.funcs.rings.disjoint hm
          (item_mem_rings.mpr ⟨_, hl, List.mem_cons_self⟩))) hfree
  refine ⟨i, { h with funcs := s }, _, (next_items hinv.funcs.rings hl).1, hmap.1, ?_, rfl, ?_,
    hinv.setFuncs hc (l := l) hs' (fun t' l' hl' => ?_) (fun k hk => ?_) (fun _ _ => rfl)
    (by simp) hmap.2⟩
  · rw [Heap.dropFunc, hu]
    change ((State.giveBack _ t (.item i)).bind _) = _
    rw [hback]
    rfl
  · rw [Heap.fuel, Heap.fuel]
    exact congrArg (· + 1) hfresh
  · exact exists_update (exists_update ⟨l', hl'⟩ _ _) _ _
  · simp [hk]

theorem Inv.dropFuncs (hinv : Inv T h cbLists lists m) (ht : T t) (hc : m c = some C) {n : ℕ}
    (hn : C.funcs.length < n) :
    ∃ h' lists', Heap.dropFuncs t c n h = some h' ∧ h'.cbs = h.cbs ∧
      Inv T h' cbLists lists' (Function.update m c (some { C with funcs := [] })) := by
  obtain ⟨funcs, hf⟩ : ∃ fs, C.funcs = fs := ⟨_, rfl⟩
  rw [hf] at hn
  induction funcs generalizing h lists m n C with
  | nil =>
    obtain ⟨n, rfl⟩ : ∃ k, n = k + 1 := ⟨n - 1, by omega⟩
    obtain ⟨l, hl, hmap⟩ := hinv.list hc
    have hnil : l = [] := by simpa [hf] using hmap
    subst hnil
    refine ⟨h, lists, ?_, rfl, ?_⟩
    · rw [Heap.dropFuncs, (next_items hinv.funcs.rings hl).1]
      simp
    · rw [show ({ C with funcs := [] } : Contents P F) = C by rw [← hf], ← hc,
        Function.update_eq_self]
      exact hinv
  | cons f funcs ih =>
    obtain ⟨n, rfl⟩ : ∃ k, n = k + 1 := ⟨n - 1, by omega⟩
    obtain ⟨i, h₁, lists₁, hfirst, -, hdrop, hcbs, -, hinv₁⟩ := hinv.dropFunc ht hc hf
    obtain ⟨h', lists', hloop, hcbs', hinv'⟩ := ih hinv₁ (Function.update_self ..)
      (by simpa using hn) rfl
    rw [Function.update_idem] at hinv'
    refine ⟨h', lists', ?_, hcbs'.trans hcbs, hinv'⟩
    rw [Heap.dropFuncs, hfirst, Option.bind_eq_bind, Option.bind_some, if_neg (by simp), hdrop]
    exact hloop

theorem Inv.destroy (hinv : Inv T h cbLists lists m) (ht : T t) (hc : m c = some C) :
    ∃ h' cbLists' lists', h.destroy t c = some h' ∧
      Inv T h' cbLists' lists' (Function.update m c none) := by
  have hfuel : C.funcs.length < h.fuel := by
    obtain ⟨l, hl, hmap⟩ := hinv.list hc
    have := congrArg List.length hmap
    rw [List.length_map, List.length_map] at this
    exact this ▸ hinv.length_lt_fuel hl
  obtain ⟨h₁, lists₁, hloop, hcbs, hinv₁⟩ := hinv.dropFuncs ht hc hfuel
  obtain ⟨lt, hlt⟩ := (hinv₁.ready t ht).1
  obtain ⟨hlt', hfree, hout⟩ := hinv₁.rented c (by simp)
  obtain ⟨s, hback, hfresh, hs, hframe⟩ := giveBack_spec hinv₁.cbs hlt hlt' hout hfree
  have hfuncs : LinkPool.Inv h₁.funcs (Function.update lists₁ (.list c) none) := by
    refine ⟨hinv₁.funcs.rings.drop (i := .list c) (fun x _ => ⟨rfl, rfl⟩)
      (fun o ho => by rw [rings_update, Function.update_of_ne ho])
      (by rw [rings_update, Function.update_self]; rfl),
      fun t' ht' => hinv₁.funcs.uninit t' (by simpa using ht'), fun {o l} ho => ?_⟩
    by_cases hoc : o = .list c
    · simp [hoc] at ho
    · exact hinv₁.funcs.allocated (by rwa [Function.update_of_ne hoc] at ho)
  refine ⟨{ h₁ with cbs := s }, _, _, ?_, hs, hfuncs, fun t' ht' => ⟨?_, ?_⟩, fun c' hc' => ?_,
    fun {c' C'} hc' => ?_, fun {c' C'} hc' => ?_, fun {c'} hc' => ?_⟩
  · rw [Heap.destroy, hloop]
    change (h₁.cbs.giveBack t (.item c)).bind _ = _
    rw [hback]
    rfl
  · exact exists_update (hinv₁.ready t' ht').1 _ _
  · obtain ⟨l, hl⟩ := (hinv₁.ready t' ht').2
    exact ⟨l, by simpa using hl⟩
  all_goals by_cases hcc : c' = c
  · simp [hcc] at hc'
  · obtain ⟨hlt'', hfree', hout'⟩ := hinv₁.rented c' (by
      rwa [Function.update_of_ne hcc] at hc' ⊢)
    refine ⟨hfresh ▸ hlt'', ?_, not_mem_rings_append hout' hlt fun hnew =>
      hcc (List.mem_singleton.mp hnew)⟩
    rw [(hframe (.item c') (by simp [hcc, hout'])).1]
    exact hfree'
  · simp [hcc] at hc'
  · exact hinv₁.stack (by rwa [Function.update_of_ne hcc] at hc' ⊢)
  · simp [hcc] at hc'
  · obtain ⟨l, hl, hmap⟩ := hinv₁.list (c := c') (by rwa [Function.update_of_ne hcc] at hc' ⊢)
    exact ⟨l, by simpa [hcc] using hl, hmap⟩
  · simp [hcc]
  · simpa [hcc] using hinv₁.unused (c := c') (by rwa [Function.update_of_ne hcc] at hc' ⊢)

theorem Inv.invoke (hinv : Inv T h cbLists lists m) (ht : T t) (hc : m c = some C) :
    ∃ h' cbLists' lists', h.invoke t c = some (C.funcs.head?, h') ∧
      Inv T h' cbLists' lists' (Function.update m c
        (if C.funcs = [] then none else some { C with funcs := C.funcs.tail })) := by
  cases hf : C.funcs with
  | nil =>
    obtain ⟨h', cbLists', lists', hdestroy, hinv'⟩ := hinv.destroy ht hc
    obtain ⟨l, hl, hmap⟩ := hinv.list hc
    have hnil : l = [] := by simpa [hf] using hmap
    subst hnil
    refine ⟨h', cbLists', lists', ?_, hinv'⟩
    rw [Heap.invoke, (next_items hinv.funcs.rings hl).1]
    change (h.destroy t c).bind _ = _
    rw [hdestroy]
    rfl
  | cons f funcs =>
    obtain ⟨i, h', lists', hfirst, hitem, hdrop, -, -, hinv'⟩ := hinv.dropFunc ht hc hf
    refine ⟨h', cbLists, lists', ?_, hinv'⟩
    rw [Heap.invoke, hfirst]
    change (h.item i).bind _ = _
    rw [hitem]
    change (h.dropFunc t (.item i)).bind _ = _
    rw [hdrop]
    rfl

theorem Inv.stackPush (hinv : Inv T h cbLists lists m) (hc : m c = some C)
    (hroom : C.items.length + 1 ≤ 2 ^ 60) (x : P) :
    ∃ h', h.stackPush c x = some h' ∧
      Inv T h' cbLists lists (Function.update m c (some { C with items := C.items ++ [x] })) := by
  obtain ⟨s, hpush, hs⟩ := Stack.push_spec (hinv.stack hc) hroom x
  exact ⟨_, by rw [Heap.stackPush, hpush]; rfl, hinv.setStack hc hs⟩

theorem Inv.stackPop (hinv : Inv T h cbLists lists m) (hc : m c = some C) {items : List P} {x : P}
    (hx : C.items = items ++ [x]) :
    ∃ h', h.stackPop c = some (x, h') ∧
      Inv T h' cbLists lists (Function.update m c (some { C with items })) := by
  obtain ⟨s, hpop, hs⟩ := Stack.pop_spec (hx ▸ hinv.stack hc)
  exact ⟨_, by rw [Heap.stackPop, hpop]; rfl, hinv.setStack hc hs⟩

end Libuo.Callbacks
