import Libuo.HttpMsg
import Libuo.Interleaving

/-!
# File servers

Files are served from a cache of limited size. Any number of threads serve requests at the
same time: what they do between two operations on a mutex is one step. What a file is like
at a step comes from outside, as it may be changed at any time. The content of the files is
not part of the model, nor is the response.

The operations have the names of the source without the prefixes `uo_http_file_server_`,
`uo_http_file_cache_` and `uo_http_file_cache_entry_`.
-/

namespace Libuo.FileServer
open OrderedMap Interleaving
open HttpMsg (strings)

abbrev Uri := List UInt8

/-- `uo_http_file_cache_entry`, with its mutex. -/
structure Entry where
  uri : Uri
  mtime : ℤ
  size : UInt64
  locked : Bool
  freed : Bool
  deriving DecidableEq

/-- `uo_http_file_server`, with its mutex and all entries there have been. The cache has the
numbers of the entries. -/
structure Server where
  cache : List (Uri × ℕ)
  cacheSpace : UInt64
  locked : Bool
  entries : List Entry
  deriving DecidableEq

def create (cacheSize : UInt64) : Server := ⟨[], cacheSize, false, []⟩

structure Stat where
  isRegular : Bool
  mtime : ℤ
  size : UInt64

/-- What the file system answers while a step is taken: whether there is a file, whether it can
be opened, and whether its size can be read. -/
structure File where
  stat : Option Stat
  opens : Bool
  reads : Bool

/-- An entry that is still in memory. A step that uses another one is not defined. -/
def Server.entry (s : Server) (e : ℕ) : Option Entry := s.entries[e]?.filter (!·.freed)

def Server.modifyEntry (s : Server) (e : ℕ) (f : Entry → Entry) : Server :=
  { s with entries := s.entries.modify e f }

/-- `pthread_mutex_lock` of the server, when it does not block. -/
def Server.lock (s : Server) : Option Server :=
  if s.locked then none else some { s with locked := true }

def Server.unlock (s : Server) : Server := { s with locked := false }

def Server.lockEntry (s : Server) (e : ℕ) : Option Server :=
  (s.entry e).bind fun entry =>
    if entry.locked then none else some (s.modifyEntry e fun entry => { entry with locked := true })

def Server.unlockEntry (s : Server) (e : ℕ) : Server :=
  s.modifyEntry e fun entry => { entry with locked := false }

def entryCreate (uri : Uri) (file : File) : Option Entry :=
  file.stat.bind fun sb =>
    if sb.isRegular && file.opens && file.reads then some ⟨uri, sb.mtime, sb.size, false, false⟩
    else none

def Server.entryDestroy (s : Server) (e : ℕ) : Server :=
  s.modifyEntry e fun entry => { entry with locked := false, freed := true }

def Server.tryRefresh (s : Server) (e : ℕ) (sb : Stat) (file : File) : Server × Bool :=
  if file.opens then
    (s.modifyEntry e fun entry => { entry with mtime := sb.mtime, size := sb.size }, file.reads)
  else (s, false)

/-- Where a thread is in `uo_http_file_server_serve`. It waits for the server's mutex in `get`,
`removing` and `setting`, and for that of an entry in `found`, `waitDup` and `refused`. -/
inductive Serve where
  | get (uri : Uri)
  | lookUp (uri : Uri)
  | found (uri : Uri) (e : ℕ)
  | check (uri : Uri) (e : ℕ)
  | respond (e : ℕ)
  | removing (uri : Uri) (e : ℕ)
  | remove (uri : Uri) (e : ℕ)
  | destroy (e : ℕ)
  | create (uri : Uri)
  | setting (e : ℕ)
  | takeDup (e : ℕ)
  | waitDup (e dup : ℕ)
  | dropDup (e dup : ℕ)
  | set (e : ℕ)
  | refused (e : ℕ)
  deriving DecidableEq

/-- The part of the serving under the mutex of an entry. -/
def check (s : Server) (uri : Uri) (e : ℕ) (entry : Entry) (file : File) : Server × Serve :=
  match file.stat with
  | none => (s, .removing uri e)
  | some sb =>
    if sb.mtime = entry.mtime then (s, .respond e)
    else
      let (s, refreshed) := s.tryRefresh e sb file
      (s, if refreshed then .respond e else .removing uri e)

def step (s : Server) : Serve → File → Option (Server × List Serve)
  -- `uo_http_file_server_get_cache_entry`
  | .get uri, _ => s.lock.map (·, [.lookUp uri])
  | .lookUp uri, _ =>
    some (s.unlock, match OrderedMap.get strings s.cache uri with
      | some e => [.found uri e]
      | none => [.create uri])
  | .found uri e, _ => (s.lockEntry e).map (·, [.check uri e])
  | .check uri e, file =>
    (s.entry e).map fun entry => ((check s uri e entry file).1, [(check s uri e entry file).2])
  | .respond e, _ => (s.entry e).map fun _ => (s.unlockEntry e, [])
  -- `uo_http_file_server_remove_cache_entry`, for an entry that is still locked
  | .removing uri e, _ => s.lock.map (·, [.remove uri e])
  | .remove uri e, _ =>
    (OrderedMap.get strings s.cache uri).bind fun r => (s.entry r).map fun entry =>
      ({ s with
        cache := OrderedMap.remove strings s.cache uri
        cacheSpace := s.cacheSpace + entry.size
        locked := false }, [.destroy e])
  | .destroy e, _ => (s.entry e).map fun _ => (s.entryDestroy e, [])
  | .create uri, file =>
    some (match entryCreate uri file with
      | none => (s, [])
      | some entry => ({ s with entries := s.entries ++ [entry] }, [.setting s.entries.length]))
  -- `uo_http_file_server_try_set_cache_entry`
  | .setting e, _ => s.lock.map (·, [.takeDup e])
  | .takeDup e, _ =>
    (s.entry e).map fun entry =>
      match OrderedMap.get strings s.cache entry.uri with
      | none => (s, [.set e])
      | some dup =>
        ({ s with cache := OrderedMap.remove strings s.cache entry.uri }, [.waitDup e dup])
  | .waitDup e dup, _ => (s.lockEntry dup).map (·, [.dropDup e dup])
  | .dropDup e dup, _ =>
    (s.entry dup).map fun entry =>
      ({ s with cacheSpace := s.cacheSpace + entry.size }.entryDestroy dup, [.set e])
  | .set e, _ =>
    (s.entry e).map fun entry =>
      if s.cacheSpace < entry.size then (s.unlock, [.refused e])
      else
        ({ s with
          cache := OrderedMap.set strings s.cache entry.uri e
          cacheSpace := s.cacheSpace - entry.size
          locked := false }, [])
  | .refused e, _ => (s.lockEntry e).map (·, [.destroy e])

/-- Requests come at any time. -/
def server : System Server Serve File where
  starts
    | .get _ => true
    | _ => false
  step := step

/-- A thread that has locked the server. -/
def Serve.holdsServer : Serve → Bool
  | .lookUp _ | .remove _ _ | .takeDup _ | .waitDup _ _ | .dropDup _ _ | .set _ => true
  | _ => false

/-- A thread that has locked an entry. -/
def Serve.holdsEntry : Serve → ℕ → Bool
  | .check _ e, e' | .respond e, e' | .removing _ e, e' | .remove _ e, e' | .destroy e, e' => e = e'
  | .dropDup _ dup, e' => dup = e'
  | _, _ => false

/-- A file that is as it was, or that can be read again. -/
def Valid (entry : Entry) (file : File) : Prop :=
  ∃ sb, file.stat = some sb ∧ (sb.mtime = entry.mtime ∨ file.opens = true ∧ file.reads = true)

/-- The outcomes of a step. -/
inductive Step (s : Server) (file : File) : Serve → Server → List Serve → Prop
  | get {uri : Uri} {s' : Server} (h : s.lock = some s') : Step s file (.get uri) s' [.lookUp uri]
  | hit {uri : Uri} {e : ℕ} (h : OrderedMap.get strings s.cache uri = some e) :
    Step s file (.lookUp uri) s.unlock [.found uri e]
  | miss {uri : Uri} (h : OrderedMap.get strings s.cache uri = none) :
    Step s file (.lookUp uri) s.unlock [.create uri]
  | found {uri : Uri} {e : ℕ} {s' : Server} (h : s.lockEntry e = some s') :
    Step s file (.found uri e) s' [.check uri e]
  | valid {uri : Uri} {e : ℕ} {entry : Entry} (he : s.entry e = some entry)
      (h : Valid entry file) :
    Step s file (.check uri e) (check s uri e entry file).1 [.respond e]
  | invalid {uri : Uri} {e : ℕ} {entry : Entry} (he : s.entry e = some entry)
      (h : ¬ Valid entry file) :
    Step s file (.check uri e) (check s uri e entry file).1 [.removing uri e]
  | respond {e : ℕ} {entry : Entry} (he : s.entry e = some entry) :
    Step s file (.respond e) (s.unlockEntry e) []
  | removing {uri : Uri} {e : ℕ} {s' : Server} (h : s.lock = some s') :
    Step s file (.removing uri e) s' [.remove uri e]
  | remove {uri : Uri} {e r : ℕ} {entry : Entry}
      (h : OrderedMap.get strings s.cache uri = some r) (hr : s.entry r = some entry) :
    Step s file (.remove uri e) { s with
      cache := OrderedMap.remove strings s.cache uri
      cacheSpace := s.cacheSpace + entry.size
      locked := false } [.destroy e]
  | destroy {e : ℕ} {entry : Entry} (he : s.entry e = some entry) :
    Step s file (.destroy e) (s.entryDestroy e) []
  | absent {uri : Uri} (h : entryCreate uri file = none) : Step s file (.create uri) s []
  | create {uri : Uri} {entry : Entry} (h : entryCreate uri file = some entry) :
    Step s file (.create uri) { s with entries := s.entries ++ [entry] }
      [.setting s.entries.length]
  | setting {e : ℕ} {s' : Server} (h : s.lock = some s') :
    Step s file (.setting e) s' [.takeDup e]
  | noDup {e : ℕ} {entry : Entry} (he : s.entry e = some entry)
      (h : OrderedMap.get strings s.cache entry.uri = none) : Step s file (.takeDup e) s [.set e]
  | takeDup {e dup : ℕ} {entry : Entry} (he : s.entry e = some entry)
      (h : OrderedMap.get strings s.cache entry.uri = some dup) :
    Step s file (.takeDup e) { s with cache := OrderedMap.remove strings s.cache entry.uri }
      [.waitDup e dup]
  | waitDup {e dup : ℕ} {s' : Server} (h : s.lockEntry dup = some s') :
    Step s file (.waitDup e dup) s' [.dropDup e dup]
  | dropDup {e dup : ℕ} {entry : Entry} (he : s.entry dup = some entry) :
    Step s file (.dropDup e dup)
      ({ s with cacheSpace := s.cacheSpace + entry.size }.entryDestroy dup) [.set e]
  | full {e : ℕ} {entry : Entry} (he : s.entry e = some entry) (h : s.cacheSpace < entry.size) :
    Step s file (.set e) s.unlock [.refused e]
  | set {e : ℕ} {entry : Entry} (he : s.entry e = some entry) (h : ¬ s.cacheSpace < entry.size) :
    Step s file (.set e) { s with
      cache := OrderedMap.set strings s.cache entry.uri e
      cacheSpace := s.cacheSpace - entry.size
      locked := false } []
  | refused {e : ℕ} {s' : Server} (h : s.lockEntry e = some s') :
    Step s file (.refused e) s' [.destroy e]

variable {s s' : Server} {c : Serve} {new : List Serve} {file : File} {entry : Entry} {uri : Uri}
  {e : ℕ}

theorem check_snd (s : Server) (uri : Uri) (e : ℕ) (entry : Entry) (file : File) :
    Valid entry file ∧ (check s uri e entry file).2 = .respond e ∨
      ¬ Valid entry file ∧ (check s uri e entry file).2 = .removing uri e := by
  rw [check]
  cases hstat : file.stat with
  | none => simp [Valid, hstat]
  | some sb =>
    by_cases hmtime : sb.mtime = entry.mtime
    · simp [Valid, hstat, hmtime]
    · cases hopens : file.opens <;> cases hreads : file.reads <;>
        simp [Valid, Server.tryRefresh, hstat, hmtime, hopens, hreads]

theorem check_fst (s : Server) (uri : Uri) (e : ℕ) (entry : Entry) (file : File) :
    (check s uri e entry file).1 = s ∨ ∃ sb, file.stat = some sb ∧ sb.mtime ≠ entry.mtime ∧
      file.opens = true ∧ (check s uri e entry file).1 =
        s.modifyEntry e fun entry => { entry with mtime := sb.mtime, size := sb.size } := by
  rw [check]
  split
  · exact .inl rfl
  · rename_i sb hstat
    split
    · exact .inl rfl
    · rename_i hmtime
      simp only [Server.tryRefresh]
      split
      · exact .inr ⟨sb, hstat, hmtime, ‹_›, rfl⟩
      · exact .inl rfl

theorem step_cases (h : step s c file = some (s', new)) : Step s file c s' new := by
  cases c with
  | get uri =>
    obtain ⟨s₁, hs, hr⟩ := Option.map_eq_some_iff.mp h
    obtain ⟨rfl, rfl⟩ := Prod.mk.inj hr
    exact .get hs
  | lookUp uri =>
    obtain ⟨rfl, rfl⟩ := Prod.mk.inj (Option.some.inj h)
    split
    · exact .hit ‹_›
    · exact .miss ‹_›
  | found uri e =>
    obtain ⟨s₁, hs, hr⟩ := Option.map_eq_some_iff.mp h
    obtain ⟨rfl, rfl⟩ := Prod.mk.inj hr
    exact .found hs
  | check uri e =>
    obtain ⟨entry, he, hr⟩ := Option.map_eq_some_iff.mp h
    obtain ⟨rfl, rfl⟩ := Prod.mk.inj hr
    rcases check_snd s uri e entry file with ⟨hv, hc⟩ | ⟨hv, hc⟩
    · rw [hc]
      exact .valid he hv
    · rw [hc]
      exact .invalid he hv
  | respond e =>
    obtain ⟨entry, he, hr⟩ := Option.map_eq_some_iff.mp h
    obtain ⟨rfl, rfl⟩ := Prod.mk.inj hr
    exact .respond he
  | removing uri e =>
    obtain ⟨s₁, hs, hr⟩ := Option.map_eq_some_iff.mp h
    obtain ⟨rfl, rfl⟩ := Prod.mk.inj hr
    exact .removing hs
  | remove uri e =>
    obtain ⟨r, hget, h⟩ := Option.bind_eq_some_iff.mp h
    obtain ⟨entry, hentry, hr⟩ := Option.map_eq_some_iff.mp h
    obtain ⟨rfl, rfl⟩ := Prod.mk.inj hr
    exact .remove hget hentry
  | destroy e =>
    obtain ⟨entry, he, hr⟩ := Option.map_eq_some_iff.mp h
    obtain ⟨rfl, rfl⟩ := Prod.mk.inj hr
    exact .destroy he
  | create uri =>
    have hr := Option.some.inj h
    cases hentry : entryCreate uri file with
    | none =>
      rw [hentry] at hr
      obtain ⟨rfl, rfl⟩ := Prod.mk.inj hr
      exact .absent hentry
    | some entry =>
      rw [hentry] at hr
      obtain ⟨rfl, rfl⟩ := Prod.mk.inj hr
      exact .create hentry
  | setting e =>
    obtain ⟨s₁, hs, hr⟩ := Option.map_eq_some_iff.mp h
    obtain ⟨rfl, rfl⟩ := Prod.mk.inj hr
    exact .setting hs
  | takeDup e =>
    obtain ⟨entry, he, hr⟩ := Option.map_eq_some_iff.mp h
    cases hget : OrderedMap.get strings s.cache entry.uri with
    | none =>
      rw [hget] at hr
      obtain ⟨rfl, rfl⟩ := Prod.mk.inj hr
      exact .noDup he hget
    | some dup =>
      rw [hget] at hr
      obtain ⟨rfl, rfl⟩ := Prod.mk.inj hr
      exact .takeDup he hget
  | waitDup e dup =>
    obtain ⟨s₁, hs, hr⟩ := Option.map_eq_some_iff.mp h
    obtain ⟨rfl, rfl⟩ := Prod.mk.inj hr
    exact .waitDup hs
  | dropDup e dup =>
    obtain ⟨entry, he, hr⟩ := Option.map_eq_some_iff.mp h
    obtain ⟨rfl, rfl⟩ := Prod.mk.inj hr
    exact .dropDup he
  | set e =>
    obtain ⟨entry, he, hr⟩ := Option.map_eq_some_iff.mp h
    split at hr
    · obtain ⟨rfl, rfl⟩ := Prod.mk.inj hr
      exact .full he ‹_›
    · obtain ⟨rfl, rfl⟩ := Prod.mk.inj hr
      exact .set he ‹_›
  | refused e =>
    obtain ⟨s₁, hs, hr⟩ := Option.map_eq_some_iff.mp h
    obtain ⟨rfl, rfl⟩ := Prod.mk.inj hr
    exact .refused hs

theorem Server.lock_eq (h : s.lock = some s') :
    s.locked = false ∧ s' = { s with locked := true } := by
  rw [Server.lock] at h
  split at h
  · exact nomatch h
  · exact ⟨by simpa using ‹¬ s.locked = true›, (Option.some.inj h).symm⟩

theorem Server.lockEntry_eq (h : s.lockEntry e = some s') : ∃ entry, s.entry e = some entry ∧
    entry.locked = false ∧ s' = s.modifyEntry e fun entry => { entry with locked := true } := by
  obtain ⟨entry, he, h⟩ := Option.bind_eq_some_iff.mp h
  split at h
  · exact nomatch h
  · exact ⟨entry, he, by simpa using ‹¬ entry.locked = true›, (Option.some.inj h).symm⟩

end Libuo.FileServer
