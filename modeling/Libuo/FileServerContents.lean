import Libuo.FileServerLocks
import Libuo.FileServerPaths

/-!
# The contents of files

The file server with what it reads and sends. A response from the cache should be the one that
would be sent if the file were read again for each request.
-/

namespace Libuo.FileServer
open CStrings CText HttpMsg Interleaving Interleaving.System

/-- What there is under the name of a file while a step is taken: what `stat` gives, whether it can
be opened, and the bytes that can be read. -/
structure Disk where
  stat : Option Stat
  opens : Bool
  content : List UInt8

/-- `fread`, of as many bytes as `stat` has told. -/
def Disk.read (d : Disk) (sb : Stat) : List UInt8 := d.content.take sb.size.toNat

def Disk.file (d : Disk) : File :=
  ⟨d.stat, d.opens, d.stat.any fun sb => (d.read sb).length = sb.size.toNat⟩

/-- The `switch` over the character behind the last dot. -/
def filetype (filename : List UInt8) : List UInt8 :=
  match strrchr filename (chr '.') with
  | none => text "application/octet-stream"
  | some dot =>
    match filename[dot + 1]? with
    | none => text "application/octet-stream"
    | some c =>
      if tolower c = chr 'h' then text "text/html; charset=utf-8"
      else if tolower c = chr 'j' then text "application/javascript; charset=utf-8"
      else if tolower c = chr 'c' then text "text/css; charset=utf-8"
      else if tolower c = chr 's' then text "image/svg+xml; charset=utf-8"
      else text "application/octet-stream"

/-- A response is set to refer to the content of a file. -/
def found (content type : List UInt8) (size : UInt64) (res : Msg) : Msg :=
  setContentRef (setStatusLine res .s200 .v1_1).1 content type size.toNat

def notFound (res : Msg) : Msg :=
  setContent (setStatusLine res .s404 .v1_1).1 (text "404 Not Found") (text "text/plain")

/-- What has been set in a response, with the URI of the request and what there was under the name
of the file when it was looked at. -/
structure Served where
  uri : Uri
  disk : Disk
  set : Msg → Msg

/-- The file server, the contents that its entries refer to, and all responses. -/
structure Contents where
  server : Server
  blocks : List (List UInt8)
  served : List Served

def Contents.serve (m : Contents) (uri : Uri) (d : Disk) (set : Msg → Msg) : Contents :=
  { m with served := m.served ++ [⟨uri, d, set⟩] }

/-- The type of the file is found when the entry is created, from the name for the URI. -/
def typeOf (name : Uri → List UInt8) (uri : Uri) : List UInt8 := filetype (name uri)

variable (name : Uri → List UInt8)

/-- What the check of an entry does with the contents, and the response. -/
def checkContents (m : Contents) (uri : Uri) (e : ℕ) (entry : Entry) (d : Disk) : Contents :=
  match d.stat with
  | none => m.serve uri d notFound
  | some sb =>
    if sb.mtime = entry.mtime then
      m.serve uri d (found (m.blocks.getD e []) (typeOf name entry.uri) entry.size)
    else if d.opens then
      { m with blocks := m.blocks.set e (d.read sb) }.serve uri d
        (if d.file.reads then found (d.read sb) (typeOf name entry.uri) sb.size else notFound)
    else m.serve uri d notFound

/-- What the creation of an entry does with the contents, and the response. -/
def createContents (m : Contents) (uri : Uri) (d : Disk) : Contents :=
  match d.stat, entryCreate uri d.file with
  | some sb, some entry =>
    { m with blocks := m.blocks ++ [d.read sb] }.serve uri d
      (found (d.read sb) (typeOf name uri) entry.size)
  | _, _ => m.serve uri d notFound

/-- The contents after a step. -/
def touch (m : Contents) (c : Serve) (d : Disk) : Contents :=
  match c with
  | .check uri e => ((m.server.entry e).map fun entry => checkContents name m uri e entry d).getD m
  | .create uri => createContents name m uri d
  | _ => m

/-- Requests come at any time. -/
def contents : System Contents Serve Disk where
  starts := server.starts
  step m c d := (step m.server c d.file).map fun r => ({ touch name m c d with server := r.1 }, r.2)

/-- What is set without a cache. -/
def plain (uri : Uri) (d : Disk) : Msg → Msg :=
  match d.stat, entryCreate uri d.file with
  | some sb, some entry => found (d.read sb) (typeOf name uri) entry.size
  | _, _ => notFound

/-- What is read of a file when an entry is created. -/
def Disk.readable (d : Disk) : Option (List UInt8) :=
  d.stat.bind fun sb =>
    if sb.isRegular && d.opens && decide ((d.read sb).length = sb.size.toNat) then some (d.read sb)
    else none

/-- The content of a file is told by the time of its last modification, and all that can be read is
a regular file. -/
structure Dated (version : Uri → ℤ → Option (List UInt8)) (uri : Uri) (d : Disk) : Prop where
  version : ∀ sb, d.stat = some sb → version uri sb.mtime = d.readable
  regular : ∀ sb, d.stat = some sb → d.opens = true → d.file.reads = true → sb.isRegular = true

variable {name} {version : Uri → ℤ → Option (List UInt8)} {m m' : Contents} {c : Serve}
  {cs new : List Serve} {d : Disk} {uri : Uri} {e : ℕ} {entry : Entry} {sb : Stat}
  {block : List UInt8} {e' : ℕ}

theorem reads_iff (h : d.stat = some sb) :
    d.file.reads = true ↔ (d.read sb).length = sb.size.toNat := by
  simp [Disk.file, h]

theorem readable_eq_some (h : d.readable = some block) : ∃ sb, d.stat = some sb ∧
    sb.isRegular = true ∧ d.opens = true ∧ d.read sb = block ∧ block.length = sb.size.toNat := by
  obtain ⟨sb, hstat, h⟩ := Option.bind_eq_some_iff.mp h
  split at h
  · rename_i hall
    obtain rfl := Option.some.inj h
    simp only [Bool.and_eq_true, decide_eq_true_eq] at hall
    exact ⟨sb, hstat, hall.1.1, hall.1.2, rfl, hall.2⟩
  · cases h

theorem readable_of (hstat : d.stat = some sb) (hopens : d.opens = true)
    (hreads : d.file.reads = true) (hregular : sb.isRegular = true) :
    d.readable = some (d.read sb) := by
  rw [Disk.readable, hstat, Option.bind_some, if_pos]
  rw [hregular, hopens, decide_eq_true ((reads_iff hstat).mp hreads)]
  rfl

theorem unreadable_of (hstat : d.stat = some sb) (h : ¬ (d.opens = true ∧ d.file.reads = true)) :
    d.readable = none := by
  rw [Disk.readable, hstat, Option.bind_some]
  refine if_neg fun hall => h ?_
  simp only [Bool.and_eq_true, decide_eq_true_eq] at hall
  exact ⟨hall.1.2, (reads_iff hstat).mpr hall.2⟩

theorem plain_readable (h : d.readable = some block) (hstat : d.stat = some sb) :
    plain name uri d = found block (typeOf name uri) sb.size := by
  obtain ⟨sb', hstat', hregular, hopens, hread, hlen⟩ := readable_eq_some h
  obtain rfl : sb = sb' := Option.some.inj (hstat.symm.trans hstat')
  have hreads : d.file.reads = true := (reads_iff hstat).mpr (hread ▸ hlen)
  have hcreate : entryCreate uri d.file = some ⟨uri, sb.mtime, sb.size, false, false⟩ := by
    rw [entryCreate]
    change d.stat.bind _ = _
    rw [hstat, Option.bind_some]
    refine if_pos ?_
    rw [hregular, hreads, show d.file.opens = true from hopens]
    rfl
  rw [plain, hstat, hcreate]
  simp only [hread]

theorem plain_unreadable (h : d.readable = none) : plain name uri d = notFound := by
  rw [plain]
  cases hstat : d.stat with
  | none => rfl
  | some sb =>
    have hcreate : entryCreate uri d.file = none := by
      rw [Disk.readable, hstat, Option.bind_some] at h
      rw [entryCreate]
      change d.stat.bind _ = _
      rw [hstat, Option.bind_some]
      refine if_neg fun hall => ?_
      simp only [Bool.and_eq_true] at hall
      have hread := (reads_iff hstat).mp hall.2
      rw [if_pos] at h
      · cases h
      · simp only [Bool.and_eq_true, decide_eq_true_eq]
        exact ⟨hall.1, hread⟩
    rw [hcreate]

/-- The entry has what its file had at the time of the entry. -/
def Fresh (version : Uri → ℤ → Option (List UInt8)) (entry : Entry) (block : List UInt8) : Prop :=
  version entry.uri entry.mtime = some block ∧ block.length = entry.size.toNat

/-- A thread that destroys an entry. -/
def Serve.drops : Serve → ℕ → Bool
  | .removing _ e, e' | .remove _ e, e' | .destroy e, e' => e = e'
  | _, _ => false

/-- Each entry is fresh, or some thread is about to destroy it; and all responses have been those
that would have been sent without a cache. -/
structure Coherent (name : Uri → List UInt8) (version : Uri → ℤ → Option (List UInt8))
    (p : Pool Contents Serve) : Prop where
  named : Named ⟨p.shared.server, p.procs⟩
  exclusive : ExclusivePool ⟨p.shared.server, p.procs⟩
  length : p.shared.blocks.length = p.shared.server.entries.length
  fresh : ∀ e entry, p.shared.server.entry e = some entry →
    Fresh version entry (p.shared.blocks.getD e []) ∨ ∃ c ∈ p.procs, c.drops e = true
  served : ∀ r ∈ p.shared.served, r.set = plain name r.uri r.disk

theorem holdsEntry_of_drops (h : c.drops e = true) : c.holdsEntry e = true := by
  cases c with
  | removing uri e' | remove uri e' | destroy e' => exact h
  | _ => cases h

theorem not_drops (h : ExclusivePool ⟨m.server, c :: cs⟩) (hc : c.holdsEntry e = true) :
    ∀ c' ∈ cs, c'.drops e = false := by
  intro c' hc'
  rw [exclusive_cons] at h
  have hone := h.entries e
  simp only [hc, if_true] at hone
  have hzero : cs.countP (·.holdsEntry e) = 0 := by
    split at hone <;> omega
  by_contra hdrops
  exact List.countP_eq_zero.mp hzero c' hc' (holdsEntry_of_drops (by simpa using hdrops))

/-- What the freshness of an entry depends on. -/
def Entry.key (entry : Entry) : Uri × ℤ × UInt64 := (entry.uri, entry.mtime, entry.size)

/-- The entries of a server are those of another one, or fewer. -/
def Keeps (s s' : Server) : Prop := ∀ e entry', s'.entry e = some entry' →
  ∃ entry, s.entry e = some entry ∧ entry'.key = entry.key

variable {s s' : Server} {entry' : Entry} {f : Entry → Entry}

theorem Fresh.congr (h : Fresh version entry block) (hkey : entry'.key = entry.key) :
    Fresh version entry' block := by
  obtain ⟨huri, hrest⟩ := Prod.mk.inj hkey
  obtain ⟨hmtime, hsize⟩ := Prod.mk.inj hrest
  rw [Fresh, huri, hmtime, hsize]
  exact h

theorem keeps_refl (s : Server) : Keeps s s := fun _ entry' h => ⟨entry', h, rfl⟩

theorem entry_modifyEntry (h : (s.modifyEntry e f).entry e' = some entry') :
    ∃ entry, s.entries[e']? = some entry ∧ entry' = (if e = e' then f entry else entry) ∧
      entry'.freed = false := by
  obtain ⟨hget, hfreed⟩ := entry_eq h
  rw [Server.modifyEntry, List.getElem?_modify] at hget
  obtain ⟨entry, hentry, rfl⟩ := Option.map_eq_some_iff.mp hget
  refine ⟨entry, hentry, ?_, hfreed⟩
  split <;> rfl

theorem keeps_modifyEntry (hkey : ∀ entry, (f entry).key = entry.key)
    (hfreed : ∀ entry, (f entry).freed = false → entry.freed = false) :
    Keeps s (s.modifyEntry e f) := by
  intro e' entry' h
  obtain ⟨entry, hentry, rfl, hlive⟩ := entry_modifyEntry h
  refine ⟨entry, ?_, ?_⟩
  · rw [Server.entry, hentry]
    split at hlive
    · simp [hfreed entry hlive]
    · simp [hlive]
  · split
    · exact hkey entry
    · rfl

theorem keeps_step {file : File} (h : Step s file c s' new) (hcheck : ∀ uri e, c ≠ .check uri e)
    (hcreate : ∀ uri, c ≠ .create uri) : Keeps s s' := by
  have hlock {s₁ : Server} (hs : s.lock = some s₁) : Keeps s s₁ := by
    rw [(Server.lock_eq hs).2]
    exact keeps_refl s
  have hlockEntry {n : ℕ} {s₁ : Server} (hs : s.lockEntry n = some s₁) : Keeps s s₁ := by
    obtain ⟨entry, -, -, rfl⟩ := Server.lockEntry_eq hs
    exact keeps_modifyEntry (fun _ => rfl) fun _ hf => hf
  cases h with
  | get hs | removing hs | setting hs => exact hlock hs
  | found hs | waitDup hs | refused hs => exact hlockEntry hs
  | valid _ _ | invalid _ _ => exact absurd rfl (hcheck _ _)
  | create _ => exact absurd rfl (hcreate _)
  | respond _ => exact keeps_modifyEntry (fun _ => rfl) fun _ hf => hf
  | destroy _ => exact keeps_modifyEntry (fun _ => rfl) fun _ hf => by cases hf
  | dropDup _ => exact keeps_modifyEntry (fun _ => rfl) fun _ hf => by cases hf
  | hit _ | miss _ | remove _ _ | absent _ | noDup _ _ | takeDup _ _ | full _ _ | set _ _ =>
    exact keeps_refl s

theorem drops_step {file : File} (h : Step s file c s' new) (hc : c.drops e = true) :
    (∃ c' ∈ new, c'.drops e = true) ∨ s'.entry e = none := by
  cases h with
  | removing _ => exact .inl ⟨_, .head _, hc⟩
  | remove _ _ => exact .inl ⟨_, .head _, hc⟩
  | destroy _ =>
    obtain rfl := of_decide_eq_true hc
    refine .inr (Option.eq_none_iff_forall_ne_some.mpr fun entry' hentry => ?_)
    obtain ⟨entry, -, rfl, hlive⟩ := entry_modifyEntry hentry
    rw [if_pos rfl] at hlive
    cases hlive
  | _ => cases hc

end Libuo.FileServer
