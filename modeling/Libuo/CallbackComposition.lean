import Libuo.Callbacks
import Mathlib.Algebra.BigOperators.Group.List.Basic

/-!
# Composing callbacks

A heap of callbacks against the map of their contents. Appending one callback to another
is the append of contents, an associative operation, and prepending is the same with the
arguments exchanged.
-/

namespace Libuo.Callbacks
open LinkList LinkPool

variable {P F : Type}

/-- The pools after some threads have been initialized, before any callback is made. -/
def Heap.start (ts : List ℕ) : Heap P F where
  cbs := ts.foldl State.thrdInit State.init
  funcs := ts.foldl State.thrdInit State.init
  item _ := none
  stack _ := Stack.create 0

/-- One call. The number of a new callback is the one that comes out. -/
inductive Op (P F : Type) where
  | create (t c : ℕ)
  | clone (t cb c : ℕ)
  | destroy (t c : ℕ)
  | prependFunc (t c : ℕ) (f : F)
  | prependCb (t c before : ℕ)
  | appendFunc (t c : ℕ) (f : F)
  | appendCb (t c after : ℕ)
  | invoke (t c : ℕ)
  | stackPush (c : ℕ) (item : P)
  | stackPop (c : ℕ)

/-- The callback that a call changes, or makes. -/
def Op.target : Op P F → ℕ
  | .create _ c | .clone _ _ c | .destroy _ c | .prependFunc _ c _ | .prependCb _ c _
  | .appendFunc _ c _ | .appendCb _ c _ | .invoke _ c | .stackPush c _ | .stackPop c => c

def Op.apply (h : Heap P F) : Op P F → Option (Heap P F)
  | .create t c => (h.create t).bind fun r => if r.1 = c then some r.2 else none
  | .clone t cb c => (h.clone t cb).bind fun r => if r.1 = c then some r.2 else none
  | .destroy t c => h.destroy t c
  | .prependFunc t c f => h.prependFunc t c f
  | .prependCb t c before => h.prependCb t c before
  | .appendFunc t c f => h.appendFunc t c f
  | .appendCb t c after => h.appendCb t c after
  | .invoke t c => (h.invoke t c).map Prod.snd
  | .stackPush c item => h.stackPush c item
  | .stackPop c => (h.stackPop c).map Prod.snd

/-- The contents after a call. -/
def Op.after (m : ℕ → Option (Contents P F)) : Op P F → ℕ → Option (Contents P F)
  | .create _ c => Function.update m c (some Contents.empty)
  | .clone _ cb c => Function.update m c (m cb)
  | .destroy _ c => Function.update m c none
  | .prependFunc _ c f =>
    Function.update m c ((m c).map fun C => { C with funcs := f :: C.funcs })
  | .prependCb _ c before =>
    Function.update m c ((m c).bind fun C => (m before).map fun B => B ++ C)
  | .appendFunc _ c f =>
    Function.update m c ((m c).map fun C => { C with funcs := C.funcs ++ [f] })
  | .appendCb _ c after =>
    Function.update m c ((m c).bind fun C => (m after).map fun B => C ++ B)
  | .invoke _ c =>
    Function.update m c ((m c).bind fun C =>
      if C.funcs = [] then none else some { C with funcs := C.funcs.tail })
  | .stackPush c item =>
    Function.update m c ((m c).map fun C => { C with items := C.items ++ [item] })
  | .stackPop c =>
    Function.update m c ((m c).map fun C => { C with items := C.items.dropLast })

/-- The thread is initialized, the callbacks are in use, and the items of the stack that comes
out fit an array whose size is representable. -/
def Op.Legal (T : ℕ → Prop) (m : ℕ → Option (Contents P F)) : Op P F → Prop
  | .create t _ => T t
  | .clone t cb _ => T t ∧ ∃ C, m cb = some C
  | .destroy t c | .prependFunc t c _ | .appendFunc t c _ | .invoke t c => T t ∧ ∃ C, m c = some C
  | .prependCb t c b | .appendCb t c b => T t ∧ b ≠ c ∧ ∃ C B, m c = some C ∧ m b = some B ∧
      C.items.length + B.items.length ≤ 2 ^ 60
  | .stackPush c _ => ∃ C, m c = some C ∧ C.items.length + 1 ≤ 2 ^ 60
  | .stackPop c => ∃ C, m c = some C ∧ C.items ≠ []

def LegalFrom (T : ℕ → Prop) : (ℕ → Option (Contents P F)) → List (Op P F) → Prop
  | _, [] => True
  | m, op :: ops => op.Legal T m ∧ LegalFrom T (op.after m) ops

def run (h : Heap P F) (ops : List (Op P F)) : Option (Heap P F) := ops.foldlM Op.apply h

variable {T : ℕ → Prop} {h h' : Heap P F} {m : ℕ → Option (Contents P F)} {t a b c : ℕ}
  {A B C : Contents P F}

private theorem foldl_thrdInit (ts : List ℕ) {s : State} {lists : Owner → Option (List ℕ)}
    (hs : LinkPool.Inv s lists) (hnone : ∀ k, lists (.list k) = none) :
    ∃ lists', LinkPool.Inv (ts.foldl State.thrdInit s) lists' ∧ (∀ k, lists' (.list k) = none) ∧
      ∀ t, t ∈ ts ∨ (∃ l, lists (.thread t) = some l) → ∃ l, lists' (.thread t) = some l := by
  induction ts generalizing s lists with
  | nil => exact ⟨lists, hs, hnone, fun t ht => by simpa using ht⟩
  | cons t ts ih =>
    obtain ⟨lists', hs', hnone', hready⟩ := ih (thrdInit_spec hs t) fun k => by simp [hnone k]
    refine ⟨lists', hs', hnone', fun t' ht' => hready t' ?_⟩
    by_cases htt : t' = t
    · exact .inr (by simp [htt])
    · simpa [htt] using ht'

theorem represents_start (ts : List ℕ) :
    Represents (· ∈ ts) (Heap.start ts : Heap P F) fun _ => none := by
  obtain ⟨lists, hs, hnone, hready⟩ := foldl_thrdInit ts inv_init fun _ => rfl
  exact ⟨lists, lists, hs, hs, fun t ht => ⟨hready t (.inl ht), hready t (.inl ht)⟩,
    fun c hc => absurd rfl hc, fun hc => absurd hc (by simp), fun hc => absurd hc (by simp),
    fun _ => hnone _⟩

/-- A legal call that returns leaves the heap with the contents that it should. -/
theorem Represents.apply (hrep : Represents T h m) {op : Op P F} (hop : op.Legal T m)
    (happly : op.apply h = some h') : Represents T h' (op.after m) := by
  obtain ⟨cbLists, lists, hinv⟩ := hrep
  cases op with
  | create t c =>
    obtain ⟨c', h₁, cbLists', lists', hcall, -, hinv'⟩ := hinv.create hop
    simp only [Op.apply, hcall, Option.bind_some] at happly
    split at happly
    · rename_i hcc
      obtain rfl := Option.some.inj happly
      exact ⟨cbLists', lists', hcc ▸ hinv'⟩
    · cases happly
  | clone t cb c =>
    obtain ⟨ht, B, hb⟩ := hop
    obtain ⟨c', h₁, cbLists', lists', hcall, -, hinv'⟩ := hinv.clone ht hb
    simp only [Op.apply, hcall, Option.bind_some] at happly
    split at happly
    · rename_i hcc
      obtain rfl := Option.some.inj happly
      exact ⟨cbLists', lists', by rw [Op.after, hb]; exact hcc ▸ hinv'⟩
    · cases happly
  | destroy t c =>
    obtain ⟨ht, C, hc⟩ := hop
    obtain ⟨h₁, cbLists', lists', hcall, hinv'⟩ := hinv.destroy ht hc
    obtain rfl := Option.some.inj (hcall.symm.trans happly)
    exact ⟨cbLists', lists', hinv'⟩
  | prependFunc t c f =>
    obtain ⟨ht, C, hc⟩ := hop
    obtain ⟨h₁, lists', hcall, hinv', -⟩ := hinv.prependFunc ht hc f
    obtain rfl := Option.some.inj (hcall.symm.trans happly)
    exact ⟨cbLists, lists', by rw [Op.after, hc]; exact hinv'⟩
  | prependCb t c before =>
    obtain ⟨ht, hbc, C, B, hc, hb, hroom⟩ := hop
    obtain ⟨h₁, lists', hcall, hinv'⟩ := hinv.prependCb ht hc hb hbc hroom
    obtain rfl := Option.some.inj (hcall.symm.trans happly)
    exact ⟨cbLists, lists', by rw [Op.after, hc, hb]; exact hinv'⟩
  | appendFunc t c f =>
    obtain ⟨ht, C, hc⟩ := hop
    obtain ⟨h₁, lists', hcall, hinv', -⟩ := hinv.appendFunc ht hc f
    obtain rfl := Option.some.inj (hcall.symm.trans happly)
    exact ⟨cbLists, lists', by rw [Op.after, hc]; exact hinv'⟩
  | appendCb t c after =>
    obtain ⟨ht, hbc, C, B, hc, hb, hroom⟩ := hop
    obtain ⟨h₁, lists', hcall, hinv'⟩ := hinv.appendCb ht hc hb hbc hroom
    obtain rfl := Option.some.inj (hcall.symm.trans happly)
    exact ⟨cbLists, lists', by rw [Op.after, hc, hb]; exact hinv'⟩
  | invoke t c =>
    obtain ⟨ht, C, hc⟩ := hop
    obtain ⟨h₁, cbLists', lists', hcall, hinv'⟩ := hinv.invoke ht hc
    rw [Op.apply, hcall] at happly
    obtain rfl := Option.some.inj happly
    exact ⟨cbLists', lists', by rw [Op.after, hc]; exact hinv'⟩
  | stackPush c item =>
    obtain ⟨C, hc, hroom⟩ := hop
    obtain ⟨h₁, hcall, hinv'⟩ := hinv.stackPush hc hroom item
    obtain rfl := Option.some.inj (hcall.symm.trans happly)
    exact ⟨cbLists, lists, by rw [Op.after, hc]; exact hinv'⟩
  | stackPop c =>
    obtain ⟨C, hc, hne⟩ := hop
    have hlast := (List.dropLast_concat_getLast hne).symm
    obtain ⟨h₁, hcall, hinv'⟩ := hinv.stackPop hc hlast
    rw [Op.apply, hcall] at happly
    obtain rfl := Option.some.inj happly
    exact ⟨cbLists, lists, by rw [Op.after, hc]; exact hinv'⟩

theorem Represents.run {ops : List (Op P F)} (hrep : Represents T h m) (hops : LegalFrom T m ops)
    (hrun : run h ops = some h') : Represents T h' (ops.foldl Op.after m) := by
  induction ops generalizing h m with
  | nil =>
    obtain rfl := Option.some.inj hrun
    exact hrep
  | cons op ops ih =>
    rw [Callbacks.run, List.foldlM_cons, Option.bind_eq_bind, Option.bind_eq_some_iff] at hrun
    obtain ⟨h₁, hop, hrest⟩ := hrun
    exact ih (hrep.apply hops.1 hop) hops.2 hrest

theorem Op.after_of_ne {op : Op P F} (hc : op.target ≠ c) : op.after m c = m c := by
  cases op <;> exact Function.update_of_ne (Ne.symm hc) ..

theorem foldl_after_of_ne {ops : List (Op P F)} (hops : ∀ op ∈ ops, op.target ≠ c) :
    ops.foldl Op.after m c = m c := by
  induction ops generalizing m with
  | nil => rfl
  | cons op ops ih =>
    rw [List.foldl_cons, ih fun op' hop' => hops op' (List.mem_cons_of_mem _ hop'),
      Op.after_of_ne (hops op (by simp))]

/-- What is represented is what is read from the stack and from the list. -/
theorem Represents.reads (hrep : Represents T h m) (hc : m c = some C) :
    Heap.source (h.stack c) = some C.items ∧
      ∃ nodes : List ℕ, nodes.map h.item = C.funcs.map some ∧
        follow h.funcs.links.next (nodes.length + 1) (.head (.list c)) =
          some (nodes.map .item ++ [.head (.list c)]) := by
  obtain ⟨cbLists, lists, hinv⟩ := hrep
  obtain ⟨l, hl, hmap⟩ := hinv.list hc
  have hread := (hinv.funcs.rings.ring (rings_some hl)).follow_next
  rw [List.length_map] at hread
  exact ⟨source_eq (hinv.stack hc), l, hmap, hread⟩

/-- A sequence of callbacks appended to each other in some grouping. -/
inductive Grouping where
  | cb (c : ℕ)
  | append (g g' : Grouping)

namespace Grouping

def first : Grouping → ℕ
  | cb c => c
  | append g _ => g.first

def leaves : Grouping → List ℕ
  | cb c => [c]
  | append g g' => g.leaves ++ g'.leaves

/-- The second group is appended to the first callback of the first one. -/
def run (t : ℕ) : Grouping → Heap P F → Option (Heap P F)
  | cb _, h => some h
  | append g g', h => do
    let h ← g.run t h
    let h ← g'.run t h
    h.appendCb t g.first g'.first

theorem first_mem (g : Grouping) : g.first ∈ g.leaves := by
  induction g with
  | cb c => exact List.mem_singleton.mpr rfl
  | append g g' ih _ => exact List.mem_append_left _ ih

end Grouping

/-- The contents of a sequence of callbacks in a row. -/
def concat (m : ℕ → Option (Contents P F)) (cs : List ℕ) : Contents P F :=
  (cs.filterMap m).foldr (· ++ ·) Contents.empty

theorem concat_append (m : ℕ → Option (Contents P F)) (cs cs' : List ℕ) :
    concat m (cs ++ cs') = concat m cs ++ concat m cs' := by
  rw [concat, concat, concat, List.filterMap_append]
  induction cs.filterMap m with
  | nil => exact (Contents.empty_append _).symm
  | cons C l ih =>
    rw [List.cons_append, List.foldr_cons, List.foldr_cons, ih, Contents.append_assoc]

theorem concat_congr {m m' : ℕ → Option (Contents P F)} {cs : List ℕ}
    (hsame : ∀ c ∈ cs, m' c = m c) : concat m' cs = concat m cs := by
  rw [concat, concat, List.filterMap_congr hsame]

theorem Grouping.runs (g : Grouping) (hrep : Represents T h m) (ht : T t)
    (hnodup : g.leaves.Nodup) (hlive : ∀ c ∈ g.leaves, ∃ C, m c = some C)
    (hroom : (concat m g.leaves).items.length ≤ 2 ^ 60) :
    ∃ h' m', g.run t h = some h' ∧ Represents T h' m' ∧
      m' g.first = some (concat m g.leaves) ∧ ∀ c ∉ g.leaves, m' c = m c := by
  induction g generalizing h m with
  | cb c =>
    obtain ⟨C, hc⟩ := hlive c (List.mem_singleton.mpr rfl)
    refine ⟨h, m, rfl, hrep, ?_, fun _ _ => rfl⟩
    rw [Grouping.first, hc, Grouping.leaves, concat]
    simp [hc, Contents.append_empty]
  | append g g' ih ih' =>
    rw [Grouping.leaves] at hnodup hlive hroom
    obtain ⟨hn, hn', hdisj⟩ := List.nodup_append.mp hnodup
    rw [concat_append, Contents.items_append, List.length_append] at hroom
    obtain ⟨h₁, m₁, hrun₁, hrep₁, hfirst₁, hother₁⟩ := ih hrep hn
      (fun c hc => hlive c (List.mem_append_left _ hc)) (by omega)
    have hsame : ∀ c ∈ g'.leaves, m₁ c = m c := fun c hc =>
      hother₁ c fun hc' => hdisj c hc' c hc rfl
    obtain ⟨h₂, m₂, hrun₂, hrep₂, hfirst₂, hother₂⟩ := ih' hrep₁ hn'
      (fun c hc => by rw [hsame c hc]; exact hlive c (List.mem_append_right _ hc))
      (by rw [concat_congr hsame]; omega)
    have hout : g.first ∉ g'.leaves := fun hm => hdisj _ g.first_mem _ hm rfl
    have hleft : m₂ g.first = some (concat m g.leaves) := (hother₂ _ hout).trans hfirst₁
    have hright : m₂ g'.first = some (concat m g'.leaves) := by rw [hfirst₂, concat_congr hsame]
    obtain ⟨cbLists, lists, hinv⟩ := hrep₂
    obtain ⟨h₃, lists', happend, hinv'⟩ := hinv.appendCb ht hleft hright
      (fun he => hout (he ▸ g'.first_mem)) (by omega)
    refine ⟨h₃, _, ?_, ⟨cbLists, lists', hinv'⟩, ?_, fun c hc => ?_⟩
    · rw [Grouping.run, hrun₁]
      change (g'.run t h₁).bind _ = _
      rw [hrun₂]
      exact happend
    · rw [Grouping.first, Function.update_self, Grouping.leaves, concat_append]
    · rw [Grouping.leaves, List.mem_append, not_or] at hc
      have hne : c ≠ g.first := fun he => hc.1 (he ▸ g.first_mem)
      rw [Function.update_of_ne hne, hother₂ c hc.2, hother₁ c hc.1]

/-- A clone is a new callback with the same contents, and keeps them whatever is done to the
others. -/
def Clones (T : ℕ → Prop) (t : ℕ) (h : Heap P F) (m : ℕ → Option (Contents P F)) (a : ℕ) : Prop :=
  ∃ c h', h.clone t a = some (c, h') ∧ m c = none ∧
    Represents T h' (Function.update m c (m a)) ∧
    ∀ ops h'', LegalFrom T (Function.update m c (m a)) ops → (∀ op ∈ ops, op.target ≠ c) →
      run h' ops = some h'' → ∃ m'', Represents T h'' m'' ∧ m'' c = m a

theorem Represents.clones (hrep : Represents T h m) (ht : T t) (ha : m a = some A) :
    Clones T t h m a := by
  obtain ⟨cbLists, lists, hinv⟩ := hrep
  obtain ⟨c, h', cbLists', lists', hclone, hnew, hinv'⟩ := hinv.clone ht ha
  rw [← ha] at hinv'
  have hrep' : Represents T h' (Function.update m c (m a)) := ⟨cbLists', lists', hinv'⟩
  refine ⟨c, h', hclone, hnew, hrep', fun ops h'' hops hother hrun => ?_⟩
  exact ⟨_, hrep'.run hops hrun, (foldl_after_of_ne hother).trans (Function.update_self ..)⟩

/-- Appending and prepending compose the contents; prepending is appending to a clone, the
grouping of appends does not matter, indices into the lower stack and negative ones into the
upper stack keep their items, and the result can be cloned. An array of more than `2 ^ 60`
pointers cannot be allocated. -/
theorem compositions (hrep : Represents T h m) (ht : T t) (hab : a ≠ b) (ha : m a = some A)
    (hb : m b = some B) (hroom : A.items.length + B.items.length ≤ 2 ^ 60) :
    (∃ h₁, h.appendCb t a b = some h₁ ∧
      Represents T h₁ (Function.update m a (some ⟨B.items ++ A.items, A.funcs ++ B.funcs⟩)) ∧
      (∀ i : ℤ, 0 ≤ i → i < B.items.length → h₁.stackIndex a i = h.stackIndex b i) ∧
      (∀ i : ℤ, -A.items.length ≤ i → i < 0 → h₁.stackIndex a i = h.stackIndex a i) ∧
      Clones T t h₁ (Function.update m a (some ⟨B.items ++ A.items, A.funcs ++ B.funcs⟩)) a) ∧
    (∃ h₁, h.prependCb t a b = some h₁ ∧
      Represents T h₁ (Function.update m a (some ⟨A.items ++ B.items, B.funcs ++ A.funcs⟩)) ∧
      (∀ i : ℤ, 0 ≤ i → i < A.items.length → h₁.stackIndex a i = h.stackIndex a i) ∧
      (∀ i : ℤ, -B.items.length ≤ i → i < 0 → h₁.stackIndex a i = h.stackIndex b i) ∧
      Clones T t h₁ (Function.update m a (some ⟨A.items ++ B.items, B.funcs ++ A.funcs⟩)) a) ∧
    (∃ c h₁ h₂, h.clone t b = some (c, h₁) ∧ m c = none ∧ h₁.appendCb t c a = some h₂ ∧
      Represents T h₂ (Function.update m c (some ⟨A.items ++ B.items, B.funcs ++ A.funcs⟩))) ∧
    ∀ g g' : Grouping, g.leaves = g'.leaves → g.leaves.Nodup →
      (∀ c ∈ g.leaves, ∃ C, m c = some C) → (concat m g.leaves).items.length ≤ 2 ^ 60 →
      ∃ h₁ m₁ h₂ m₂, g.run t h = some h₁ ∧ Represents T h₁ m₁ ∧ g'.run t h = some h₂ ∧
        Represents T h₂ m₂ ∧ m₁ g.first = some (concat m g.leaves) ∧
        m₂ g'.first = some (concat m g.leaves) := by
  obtain ⟨cbLists, lists, hinv⟩ := hrep
  refine ⟨?_, ?_, ?_, fun g g' hleaves hnodup hlive hfits => ?_⟩
  · obtain ⟨h₁, lists', hcall, hinv'⟩ := hinv.appendCb ht ha hb hab.symm hroom
    have hstack := hinv'.stack (Function.update_self ..)
    have hrep' : Represents T h₁ _ := ⟨cbLists, lists', hinv'⟩
    exact ⟨h₁, hcall, hrep', fun i => Stack.index_append_left (hinv.stack hb) hstack,
      fun i => Stack.index_append_right (hinv.stack ha) hstack,
      hrep'.clones ht (Function.update_self ..)⟩
  · obtain ⟨h₁, lists', hcall, hinv'⟩ := hinv.prependCb ht ha hb hab.symm hroom
    have hstack := hinv'.stack (Function.update_self ..)
    have hrep' : Represents T h₁ _ := ⟨cbLists, lists', hinv'⟩
    exact ⟨h₁, hcall, hrep', fun i => Stack.index_append_left (hinv.stack ha) hstack,
      fun i => Stack.index_append_right (hinv.stack hb) hstack,
      hrep'.clones ht (Function.update_self ..)⟩
  · obtain ⟨c, h₁, cbLists₁, lists₁, hclone, hnew, hinv₁⟩ := hinv.clone ht hb
    have hac : a ≠ c := by
      rintro rfl
      rw [hnew] at ha
      cases ha
    obtain ⟨h₂, lists₂, hcall, hinv₂⟩ := hinv₁.appendCb ht (Function.update_self ..)
      ((Function.update_of_ne hac ..).trans ha) hac (by omega)
    rw [Function.update_idem] at hinv₂
    exact ⟨c, h₁, h₂, hclone, hnew, hcall, cbLists₁, lists₂, hinv₂⟩
  · have hrep : Represents T h m := ⟨cbLists, lists, hinv⟩
    obtain ⟨h₁, m₁, hrun₁, hrep₁, hfirst₁, -⟩ := g.runs hrep ht hnodup hlive hfits
    rw [hleaves] at hnodup hlive hfits
    obtain ⟨h₂, m₂, hrun₂, hrep₂, hfirst₂, -⟩ := g'.runs hrep ht hnodup hlive hfits
    exact ⟨h₁, m₁, h₂, m₂, hrun₁, hrep₁, hrun₂, hrep₂, hfirst₁, hleaves ▸ hfirst₂⟩

/-- A callback with an item, to which one with a function is appended. -/
theorem compositions_start :
    ∃ (h : Heap ℕ ℕ) (m : ℕ → Option (Contents ℕ ℕ)) (a b : ℕ), a ≠ b ∧
      m a = some ⟨[7], []⟩ ∧ m b = some ⟨[], [1]⟩ ∧ Represents (· ∈ [0]) h m ∧
      ∃ h₁, h.appendCb 0 a b = some h₁ ∧
        Represents (· ∈ [0]) h₁ (Function.update m a (some ⟨[] ++ [7], [] ++ [1]⟩)) := by
  have ht : 0 ∈ [0] := List.mem_singleton.mpr rfl
  obtain ⟨cbs₀, lists₀, hinv₀⟩ := represents_start (P := ℕ) (F := ℕ) [0]
  obtain ⟨a, h₁, cbs₁, lists₁, -, -, hinv₁⟩ := hinv₀.create ht
  obtain ⟨b, h₂, cbs₂, lists₂, -, hnew, hinv₂⟩ := hinv₁.create ht
  have hab : a ≠ b := by
    rintro rfl
    simp at hnew
  obtain ⟨h₃, -, hinv₃⟩ := hinv₂.stackPush (c := a) (C := Contents.empty) (by simp [hab])
    (by simp [Contents.empty]) 7
  obtain ⟨h₄, lists₄, -, hinv₄, -⟩ := hinv₃.appendFunc (c := b) (C := Contents.empty) ht
    (by simp [hab.symm]) 1
  obtain ⟨m, hrep, ha, hb⟩ : ∃ m : ℕ → Option (Contents ℕ ℕ), Represents (· ∈ [0]) h₄ m ∧
      m a = some ⟨[7], []⟩ ∧ m b = some ⟨[], [1]⟩ :=
    ⟨_, ⟨cbs₂, lists₄, hinv₄⟩, by simp [hab, Contents.empty], by simp [Contents.empty]⟩
  obtain ⟨⟨h₅, happend, hrep₅, -⟩, -⟩ := compositions hrep ht hab ha hb (by simp)
  exact ⟨h₄, m, a, b, hab, ha, hb, hrep, h₅, happend, hrep₅⟩

end Libuo.Callbacks
