import Libuo.FileServer
import Mathlib.Algebra.BigOperators.Group.List.Basic
import Mathlib.Algebra.GroupWithZero.Nat

/-!
# The space of the cache

The free space and the sizes of the cached entries make up the size of the cache, as long as
no entry gets another size when its file is read again: the free space is changed by the size
that an entry has when it is put in or taken out.
-/

namespace Libuo.FileServer
open OrderedMap Interleaving Interleaving.System
open HttpMsg (strings)

def Server.size (s : Server) (e : ℕ) : ℕ := (s.entries[e]?.map fun entry => entry.size.toNat).getD 0

def Server.uri? (s : Server) (e : ℕ) : Option Uri := s.entries[e]?.map Entry.uri

/-- The sizes of the entries of a cache. -/
def total (size : ℕ → ℕ) (cache : List (Uri × ℕ)) : ℕ := (cache.map fun b => size b.2).sum

/-- The duplicate that a thread has taken out of the cache and not yet given up the space of. -/
def Serve.dup? : Serve → Option ℕ
  | .waitDup _ dup | .dropDup _ dup => some dup
  | _ => none

/-- The entry that a thread has made room for. -/
def Serve.newcomer? : Serve → Option ℕ
  | .waitDup e _ | .dropDup e _ | .set e => some e
  | _ => none

/-- The accounts of a server that `n` threads have locked, with the duplicates that have been
taken out and the entries that are to be put in. -/
structure Accounts (cacheSize : UInt64) (s : Server) (n : ℕ) (dups newcomers : List ℕ) : Prop where
  distinct : Distinct strings s.cache
  cached : ∀ b ∈ s.cache, b.2 < s.entries.length
  taken : ∀ d ∈ dups, d < s.entries.length
  mutex : n = if s.locked then 1 else 0
  absent : ∀ e ∈ newcomers, ∃ uri, s.uri? e = some uri ∧ get strings s.cache uri = none
  balance : s.cacheSpace.toNat + total s.size s.cache + (dups.map s.size).sum = cacheSize.toNat

/-- The entries of a server are those of another one, or more. -/
structure Same (s s' : Server) : Prop where
  length : s.entries.length ≤ s'.entries.length
  size : ∀ e < s.entries.length, s'.size e = s.size e
  uri : ∀ e < s.entries.length, s'.uri? e = s.uri? e

variable {cacheSize : UInt64} {s s' : Server} {n e d r : ℕ} {dups newcomers : List ℕ} {uri : Uri}
  {entry : Entry} {f : Entry → Entry} {cache : List (Uri × ℕ)} {size size' : ℕ → ℕ}

theorem entry_eq (h : s.entry e = some entry) :
    s.entries[e]? = some entry ∧ entry.freed = false := by
  simpa [Server.entry] using h

theorem size_eq (h : s.entry e = some entry) : s.size e = entry.size.toNat := by
  rw [Server.size, (entry_eq h).1]
  rfl

theorem uri?_eq (h : s.entry e = some entry) : s.uri? e = some entry.uri := by
  rw [Server.uri?, (entry_eq h).1]
  rfl

theorem lt_of_entry (h : s.entry e = some entry) : e < s.entries.length :=
  (List.getElem?_eq_some_iff.mp (entry_eq h).1).1

theorem uri?_modifyEntry (s : Server) (e e' : ℕ) (huri : ∀ entry, (f entry).uri = entry.uri) :
    (s.modifyEntry e f).uri? e' = s.uri? e' := by
  rw [Server.uri?, Server.uri?, Server.modifyEntry, List.getElem?_modify]
  cases he : s.entries[e']? with
  | none => rfl
  | some entry =>
    by_cases hee : e = e'
    · simp [hee, huri]
    · simp [hee]

theorem same_modifyEntry (hsize : ∀ entry, s.entries[e]? = some entry → (f entry).size = entry.size)
    (huri : ∀ entry, (f entry).uri = entry.uri) : Same s (s.modifyEntry e f) := by
  refine ⟨by simp [Server.modifyEntry], fun e' _ => ?_, fun e' _ => uri?_modifyEntry s e e' huri⟩
  rw [Server.size, Server.size, Server.modifyEntry, List.getElem?_modify]
  cases he : s.entries[e']? with
  | none => rfl
  | some entry =>
    by_cases hee : e = e'
    · subst hee
      simp [hsize entry he]
    · simp [hee]

theorem same_append (s : Server) (entry : Entry) :
    Same s { s with entries := s.entries ++ [entry] } := by
  refine ⟨by simp, fun e he => ?_, fun e he => ?_⟩
  · rw [Server.size, Server.size, List.getElem?_append_left he]
  · rw [Server.uri?, Server.uri?, List.getElem?_append_left he]

theorem total_congr (h : ∀ b ∈ cache, size' b.2 = size b.2) :
    total size' cache = total size cache := by
  rw [total, total, List.map_congr_left h]

theorem total_remove (size : ℕ → ℕ) (hd : Distinct strings cache)
    (h : get strings cache uri = some r) :
    total size cache = total size (remove strings cache uri) + size r := by
  induction cache with
  | nil => simp at h
  | cons b cache ih =>
    obtain ⟨hb, hd⟩ := List.pairwise_cons.mp hd
    rw [get_cons] at h
    by_cases hk : strings.equals b.1 uri = true
    · rw [if_pos hk] at h
      obtain rfl := Option.some.inj h
      have hrest : remove strings cache uri = cache := by
        refine remove_of_get_none (Option.not_isSome_iff_eq_none.mp fun hs => ?_)
        obtain ⟨b', hb', hk'⟩ := get_isSome.mp hs
        have := strings.trans hk (strings.symm hk')
        rw [hb b' hb'] at this
        exact nomatch this
      have : remove strings (b :: cache) uri = cache := by
        rw [remove, List.filter_cons_of_neg (by simp [hk])]
        exact hrest
      rw [this, total, total, List.map_cons, List.sum_cons, Nat.add_comm]
    · rw [if_neg hk] at h
      have : remove strings (b :: cache) uri = b :: remove strings cache uri := by
        rw [remove, List.filter_cons_of_pos (by simp [hk])]
        rfl
      have ih := ih hd h
      rw [this]
      simp only [total, List.map_cons, List.sum_cons] at ih ⊢
      omega

theorem total_set (h : get strings cache uri = none) :
    total size (OrderedMap.set strings cache uri e) = total size cache + size e := by
  rw [OrderedMap.set, h, if_neg (by simp)]
  simp [total]

/-- What does not change the cache or an entry's size leaves the accounts alone. -/
theorem Accounts.same (h : Accounts cacheSize s n dups newcomers) (hs : Same s s')
    (hcache : s'.cache = s.cache) (hspace : s'.cacheSpace = s.cacheSpace)
    (hlocked : s'.locked = s.locked) : Accounts cacheSize s' n dups newcomers := by
  obtain ⟨hdistinct, hcached, htaken, hmutex, habsent, hbalance⟩ := h
  refine ⟨hcache ▸ hdistinct, fun b hb => ?_, fun d hd => (htaken d hd).trans_le hs.length,
    hlocked ▸ hmutex, fun e he => ?_, ?_⟩
  · exact (hcached b (hcache ▸ hb)).trans_le hs.length
  · obtain ⟨uri, huri, hget⟩ := habsent e he
    have hlt : e < s.entries.length := by
      rw [Server.uri?, Option.map_eq_some_iff] at huri
      obtain ⟨entry, hentry, -⟩ := huri
      exact (List.getElem?_eq_some_iff.mp hentry).1
    exact ⟨uri, (hs.uri e hlt).trans huri, hcache ▸ hget⟩
  · have hdups : dups.map s'.size = dups.map s.size :=
      List.map_congr_left fun d hd => hs.size d (htaken d hd)
    rw [hcache, hspace, hdups, total_congr fun b hb => hs.size b.2 (hcached b hb)]
    exact hbalance

theorem Accounts.lock (h : Accounts cacheSize s n dups newcomers) (hs : s.lock = some s') :
    Accounts cacheSize s' (n + 1) dups newcomers := by
  obtain ⟨hdistinct, hcached, htaken, hmutex, habsent, hbalance⟩ := h
  obtain ⟨hlocked, rfl⟩ := Server.lock_eq hs
  rw [if_neg (by simp [hlocked])] at hmutex
  exact ⟨hdistinct, hcached, htaken, by simp [hmutex], habsent, hbalance⟩

theorem Accounts.unlock (h : Accounts cacheSize s (n + 1) dups newcomers) :
    Accounts cacheSize s.unlock n dups newcomers := by
  obtain ⟨hdistinct, hcached, htaken, hmutex, habsent, hbalance⟩ := h
  refine ⟨hdistinct, hcached, htaken, ?_, habsent, hbalance⟩
  change n = 0
  split at hmutex <;> omega

/-- An entry is taken out of the cache, and its size is free. -/
theorem Accounts.remove (h : Accounts cacheSize s n dups newcomers)
    (hget : get strings s.cache uri = some r) (hr : s.entry r = some entry) :
    Accounts cacheSize { s with
      cache := OrderedMap.remove strings s.cache uri
      cacheSpace := s.cacheSpace + entry.size } n dups newcomers := by
  obtain ⟨hdistinct, hcached, htaken, hmutex, habsent, hbalance⟩ := h
  refine ⟨hdistinct.remove _, fun b hb => hcached b (List.mem_of_mem_filter hb), htaken, hmutex,
    fun e he => ?_, ?_⟩
  · obtain ⟨uri', huri, hnone⟩ := habsent e he
    refine ⟨uri', huri, ?_⟩
    change get strings (OrderedMap.remove strings s.cache uri) uri' = none
    rw [get_remove, hnone, ite_self]
  · have htotal := total_remove s.size hdistinct hget
    have hsize := size_eq hr
    have hlt := cacheSize.toNat_lt
    change (s.cacheSpace + entry.size).toNat +
      total s.size (OrderedMap.remove strings s.cache uri) + (dups.map s.size).sum = _
    rw [UInt64.toNat_add, Nat.mod_eq_of_lt (by omega)]
    omega

/-- A duplicate is taken out of the cache, to make room for an entry. -/
theorem Accounts.takeDup (h : Accounts cacheSize s n dups newcomers)
    (hget : get strings s.cache uri = some d) (he : s.uri? e = some uri) :
    Accounts cacheSize { s with cache := OrderedMap.remove strings s.cache uri } n (d :: dups)
      (e :: newcomers) := by
  obtain ⟨hdistinct, hcached, htaken, hmutex, habsent, hbalance⟩ := h
  have hremoved : get strings (OrderedMap.remove strings s.cache uri) uri = none := by
    rw [get_remove, if_pos (strings.refl _)]
  have hd : d < s.entries.length := by
    rw [OrderedMap.get, Option.map_eq_some_iff] at hget
    obtain ⟨b, hb, rfl⟩ := hget
    exact hcached b (List.mem_of_find?_eq_some hb)
  refine ⟨hdistinct.remove _, fun b hb => hcached b (List.mem_of_mem_filter hb),
    List.forall_mem_cons.mpr ⟨hd, htaken⟩, hmutex,
    List.forall_mem_cons.mpr ⟨⟨uri, he, hremoved⟩, fun e he => ?_⟩, ?_⟩
  · obtain ⟨uri', huri, hnone⟩ := habsent e he
    refine ⟨uri', huri, ?_⟩
    change get strings (OrderedMap.remove strings s.cache uri) uri' = none
    rw [get_remove, hnone, ite_self]
  · have htotal := total_remove s.size hdistinct hget
    change s.cacheSpace.toNat + total s.size (OrderedMap.remove strings s.cache uri) +
      ((d :: dups).map s.size).sum = _
    rw [List.map_cons, List.sum_cons]
    omega

theorem Accounts.noDup (h : Accounts cacheSize s n dups newcomers)
    (hget : get strings s.cache uri = none) (he : s.uri? e = some uri) :
    Accounts cacheSize s n dups (e :: newcomers) :=
  ⟨h.distinct, h.cached, h.taken, h.mutex,
    List.forall_mem_cons.mpr ⟨⟨uri, he, hget⟩, h.absent⟩, h.balance⟩

theorem Accounts.forget (h : Accounts cacheSize s n dups (e :: newcomers)) :
    Accounts cacheSize s n dups newcomers :=
  ⟨h.distinct, h.cached, h.taken, h.mutex, fun e he => h.absent e (.tail _ he), h.balance⟩

/-- The size of a duplicate is free. -/
theorem Accounts.dropDup (h : Accounts cacheSize s n (d :: dups) newcomers)
    (hd : s.entry d = some entry) :
    Accounts cacheSize { s with cacheSpace := s.cacheSpace + entry.size } n dups newcomers := by
  obtain ⟨hdistinct, hcached, htaken, hmutex, habsent, hbalance⟩ := h
  refine ⟨hdistinct, hcached, (List.forall_mem_cons.mp htaken).2, hmutex, habsent, ?_⟩
  have hsize := size_eq hd
  have hlt := cacheSize.toNat_lt
  rw [List.map_cons, List.sum_cons] at hbalance
  change (s.cacheSpace + entry.size).toNat + total s.size s.cache + (dups.map s.size).sum = _
  rw [UInt64.toNat_add, Nat.mod_eq_of_lt (by omega)]
  omega

/-- An entry that fits is put into the cache. -/
theorem Accounts.set (h : Accounts cacheSize s n dups [e]) (he : s.entry e = some entry)
    (hfits : ¬ s.cacheSpace < entry.size) :
    Accounts cacheSize { s with
      cache := OrderedMap.set strings s.cache entry.uri e
      cacheSpace := s.cacheSpace - entry.size } n dups [] := by
  obtain ⟨hdistinct, hcached, htaken, hmutex, habsent, hbalance⟩ := h
  obtain ⟨uri, huri, hnone⟩ := habsent e (.head _)
  obtain rfl : entry.uri = uri := Option.some.inj ((uri?_eq he).symm.trans huri)
  have hset : OrderedMap.set strings s.cache entry.uri e = s.cache ++ [(entry.uri, e)] := by
    rw [OrderedMap.set, hnone, if_neg (by simp)]
  refine ⟨hdistinct.set _ _, fun b hb => ?_, htaken, hmutex, by simp, ?_⟩
  · rw [hset] at hb
    rcases List.mem_append.mp hb with hb | hb
    · exact hcached b hb
    · rw [List.mem_singleton.mp hb]
      exact lt_of_entry he
  · have hle : entry.size ≤ s.cacheSpace := UInt64.not_lt.mp hfits
    have hsize := size_eq he
    have hle' := UInt64.le_iff_toNat_le.mp hle
    change (s.cacheSpace - entry.size).toNat +
      total s.size (OrderedMap.set strings s.cache entry.uri e) + (dups.map s.size).sum = _
    rw [total_set hnone, UInt64.toNat_sub_of_le _ _ hle]
    omega

def Accounted (cacheSize : UInt64) (p : Pool Server Serve) : Prop :=
  Accounts cacheSize p.shared (p.procs.countP Serve.holdsServer) (p.procs.filterMap Serve.dup?)
    (p.procs.filterMap Serve.newcomer?)

/-- A file that is read again has the size that its entry has. -/
def KeepsSize (p : Pool Server Serve) : Serve → File → Prop
  | .check _ e, file => ∀ sb entry, file.stat = some sb → p.shared.entry e = some entry →
      sb.mtime ≠ entry.mtime → file.opens = true → sb.size = entry.size
  | _, _ => True

variable {c : Serve} {cs new : List Serve} {file : File}

theorem newcomers_nil (h : cs.countP Serve.holdsServer = 0) :
    cs.filterMap Serve.newcomer? = [] := by
  refine List.filterMap_eq_nil_iff.mpr fun c hc => ?_
  have := List.countP_eq_zero.mp h c hc
  cases c <;> first | rfl | simp [Serve.holdsServer] at this

theorem accounted_cons : Accounted cacheSize ⟨s, c :: cs⟩ ↔
    Accounts cacheSize s (cs.countP Serve.holdsServer + if c.holdsServer then 1 else 0)
      (c.dup?.toList ++ cs.filterMap Serve.dup?)
      (c.newcomer?.toList ++ cs.filterMap Serve.newcomer?) := by
  rw [Accounted, List.countP_cons, List.filterMap_cons, List.filterMap_cons]
  cases c.dup? <;> cases c.newcomer? <;> rfl

theorem same_lockEntry (h : s.lockEntry e = some s') : Same s s' ∧ s'.cache = s.cache ∧
    s'.cacheSpace = s.cacheSpace ∧ s'.locked = s.locked := by
  obtain ⟨entry, -, -, rfl⟩ := Server.lockEntry_eq h
  exact ⟨same_modifyEntry (fun _ _ => rfl) fun _ => rfl, rfl, rfl, rfl⟩

/-- The check of an entry keeps the accounts if it keeps the size. -/
theorem Accounts.check (h : Accounts cacheSize s n dups newcomers) (he : s.entry e = some entry)
    (hsize : ∀ sb, file.stat = some sb → sb.mtime ≠ entry.mtime → file.opens = true →
      sb.size = entry.size) :
    Accounts cacheSize (check s uri e entry file).1 n dups newcomers := by
  rcases check_fst s uri e entry file with hs | ⟨sb, hstat, hmtime, hopens, hs⟩
  · exact hs.symm ▸ h
  · rw [hs]
    refine h.same (same_modifyEntry (fun entry' he' => ?_) fun _ => rfl) rfl rfl rfl
    rw [(entry_eq he).1] at he'
    obtain rfl := Option.some.inj he'
    exact hsize sb hstat hmtime hopens

theorem accounted_step (h : Accounted cacheSize ⟨s, c :: cs⟩)
    (hc : KeepsSize ⟨s, c :: cs⟩ c file) (hstep : step s c file = some (s', new)) :
    Accounted cacheSize ⟨s', new ++ cs⟩ := by
  rw [accounted_cons] at h
  cases step_cases hstep with
  | get hs => exact accounted_cons.mpr (h.lock hs)
  | hit _ => exact accounted_cons.mpr h.unlock
  | miss _ => exact accounted_cons.mpr h.unlock
  | found hs =>
    obtain ⟨hsame, hcache, hspace, hlocked⟩ := same_lockEntry hs
    exact accounted_cons.mpr (h.same hsame hcache hspace hlocked)
  | valid he _ =>
    exact accounted_cons.mpr (h.check he fun sb hstat hmtime hopens =>
      hc sb _ hstat he hmtime hopens)
  | invalid he _ =>
    exact accounted_cons.mpr (h.check he fun sb hstat hmtime hopens =>
      hc sb _ hstat he hmtime hopens)
  | respond _ => exact h.same (same_modifyEntry (fun _ _ => rfl) fun _ => rfl) rfl rfl rfl
  | removing hs => exact accounted_cons.mpr (h.lock hs)
  | remove hget hr => exact accounted_cons.mpr (h.remove hget hr).unlock
  | destroy _ => exact h.same (same_modifyEntry (fun _ _ => rfl) fun _ => rfl) rfl rfl rfl
  | absent _ => exact h
  | create _ => exact accounted_cons.mpr (h.same (same_append s _) rfl rfl rfl)
  | setting hs => exact accounted_cons.mpr (h.lock hs)
  | noDup he hget => exact accounted_cons.mpr (h.noDup hget (uri?_eq he))
  | takeDup he hget => exact accounted_cons.mpr (h.takeDup hget (uri?_eq he))
  | waitDup hs =>
    obtain ⟨hsame, hcache, hspace, hlocked⟩ := same_lockEntry hs
    exact accounted_cons.mpr (h.same hsame hcache hspace hlocked)
  | dropDup he =>
    exact accounted_cons.mpr
      ((h.dropDup he).same (same_modifyEntry (fun _ _ => rfl) fun _ => rfl) rfl rfl rfl)
  | full _ _ => exact accounted_cons.mpr h.forget.unlock
  | set he hfits =>
    -- nobody else makes room for an entry
    have hnil : cs.filterMap Serve.newcomer? = [] := newcomers_nil (by
      have := h.mutex
      change cs.countP _ + 1 = _ at this
      split at this <;> omega)
    rw [hnil] at h
    rw [List.nil_append, Accounted, hnil]
    exact (Accounts.set h he hfits).unlock
  | refused hs =>
    obtain ⟨hsame, hcache, hspace, hlocked⟩ := same_lockEntry hs
    exact accounted_cons.mpr (h.same hsame hcache hspace hlocked)

theorem accounted_perm {cs' : List Serve} (hperm : cs.Perm cs')
    (h : Accounted cacheSize ⟨s, cs⟩) : Accounted cacheSize ⟨s, cs'⟩ := by
  obtain ⟨hdistinct, hcached, htaken, hmutex, habsent, hbalance⟩ := h
  refine ⟨hdistinct, hcached, fun d hd => htaken d ?_, hperm.countP_eq _ ▸ hmutex,
    fun e he => habsent e ?_, ?_⟩
  · exact (hperm.filterMap _).mem_iff.mpr hd
  · exact (hperm.filterMap _).mem_iff.mpr he
  · rw [← ((hperm.filterMap Serve.dup?).map s.size).sum_eq]
    exact hbalance

theorem accounted_create (cacheSize : UInt64) : Accounted cacheSize ⟨create cacheSize, []⟩ :=
  ⟨List.Pairwise.nil, nofun, nofun, rfl, nofun, rfl⟩

theorem accounted_run {p : Pool Server Serve} {events : List (Event Serve File)}
    (hevents : server.Along KeepsSize ⟨create cacheSize, []⟩ events)
    (hrun : server.run ⟨create cacheSize, []⟩ events = some p) : Accounted cacheSize p := by
  refine System.run_invariant accounted_perm ?_ ?_ accounted_step (accounted_create cacheSize)
    hevents hrun
  · intro q cs cs' c file _ hc
    cases c <;> exact hc
  · intro q cs c h hc
    cases c with
    | get uri => exact accounted_cons.mpr h
    | _ => exact nomatch hc

/-- No thread is in an operation on the cache. -/
def Idle (p : Pool Server Serve) : Prop := ∀ c ∈ p.procs, c.holdsServer = false

/-- The free space and the sizes of the cached entries make up the size of the cache whenever
no operation on it is in progress, in all runs where a file that is read again has the size of
its entry. -/
theorem balanced (cacheSize : UInt64) (events : List (Event Serve File)) (p : Pool Server Serve)
    (hevents : server.Along KeepsSize ⟨create cacheSize, []⟩ events)
    (hrun : server.run ⟨create cacheSize, []⟩ events = some p) (hidle : Idle p) :
    p.shared.cacheSpace.toNat + total p.shared.size p.shared.cache = cacheSize.toNat := by
  have h := accounted_run hevents hrun
  have hdups : p.procs.filterMap Serve.dup? = [] := by
    refine List.filterMap_eq_nil_iff.mpr fun c hc => ?_
    have := hidle c hc
    cases c <;> first | rfl | exact nomatch this
  have hbalance := h.balance
  rw [hdups] at hbalance
  exact hbalance

/-- A file that can be opened and read. -/
def readable (mtime : ℤ) (size : UInt64) : File := ⟨some ⟨true, mtime, size⟩, true, true⟩

/-- A request for a file that is not in the cache, and one for it when it is, with what the file
is at the two times. -/
def twice (uri : Uri) (file file' : File) : List (Event Serve File) :=
  .start (.get uri) :: List.replicate 6 (.turn 0 file) ++
    .start (.get uri) :: List.replicate 5 (.turn 0 file')

theorem balanced_touched : ∃ p,
    server.run ⟨create 100, []⟩ (twice [] (readable 1 10) (readable 2 10)) = some p ∧
      p.shared.cacheSpace.toNat + total p.shared.size p.shared.cache = 100 := by
  have hevents : server.Along KeepsSize ⟨create 100, []⟩
      (twice [] (readable 1 10) (readable 2 10)) :=
    along_start rfl <| along_turn rfl trivial rfl <| along_turn rfl trivial rfl <|
      along_turn rfl trivial rfl <| along_turn rfl trivial rfl <| along_turn rfl trivial rfl <|
      along_turn rfl trivial rfl <| along_start rfl <| along_turn rfl trivial rfl <|
      along_turn rfl trivial rfl <| along_turn rfl trivial rfl <|
      along_turn rfl (fun sb entry hsb hentry _ _ => by cases hsb; cases hentry; rfl) rfl <|
      along_turn rfl trivial rfl trivial
  refine ⟨_, rfl, balanced 100 _ _ hevents rfl ?_⟩
  exact fun c hc => nomatch hc

/-- A file grows and is read again. -/
theorem not_balanced_grown : ¬ ∀ (cacheSize : UInt64) (events : List (Event Serve File))
    (p : Pool Server Serve), server.run ⟨create cacheSize, []⟩ events = some p → Idle p →
      p.shared.cacheSpace.toNat + total p.shared.size p.shared.cache = cacheSize.toNat := by
  intro h
  obtain ⟨p, hp, hprocs, hspace, htotal⟩ : ∃ p,
      server.run ⟨create 100, []⟩ (twice [] (readable 1 10) (readable 2 20)) = some p ∧
        p.procs = [] ∧ p.shared.cacheSpace = 90 ∧ total p.shared.size p.shared.cache = 20 :=
    ⟨_, rfl, rfl, rfl, rfl⟩
  have hsum := h 100 _ p hp fun c hc => by rw [hprocs] at hc; exact nomatch hc
  rw [hspace, htotal] at hsum
  exact absurd hsum (by decide)

end Libuo.FileServer
