import Libuo.FileServerSpace
import Libuo.WaitGraph

/-!
# The mutexes of a file server

A thread whose entry is no longer valid waits for the server while it holds the entry. A
thread that puts a new entry into the cache waits for the old one while it holds the server.
These two are all that can be in a deadlock, and they are when the entries are the same.
-/

namespace Libuo.FileServer
open OrderedMap Interleaving Interleaving.System WaitGraph WaitGraph.Locking
open HttpMsg (strings)

inductive Mutex where
  | server
  | entry (e : ℕ)
  deriving DecidableEq

def locking : Locking Serve Mutex where
  waits
    | .get _ | .removing _ _ | .setting _ => some .server
    | .found _ e | .waitDup _ e | .refused e => some (.entry e)
    | _ => none
  holds c
    | .server => c.holdsServer
    | .entry e => c.holdsEntry e

/-- A thread is to remove an entry that another one has taken out of the cache as a duplicate. -/
def Crossing (procs : List Serve) : Prop :=
  ∃ uri e e', .removing uri e ∈ procs ∧ .waitDup e' e ∈ procs

variable {s s' : Server} {c : Serve} {cs new procs : List Serve} {file : File} {uri : Uri}
  {e dup : ℕ}

def Server.lockedEntry (s : Server) (e : ℕ) : Bool := (s.entries[e]?.map Entry.locked).getD false

/-- Each mutex is locked just in case one thread holds it: `n` threads hold that of the server,
and `held` tells how many hold those of the entries. -/
structure Exclusive (s : Server) (n : ℕ) (held : ℕ → ℕ) : Prop where
  server : n = if s.locked then 1 else 0
  entries : ∀ e, held e = if s.lockedEntry e then 1 else 0

def ExclusivePool (p : Pool Server Serve) : Prop :=
  Exclusive p.shared (p.procs.countP Serve.holdsServer) fun e => p.procs.countP (·.holdsEntry e)

theorem lockedEntry_modifyEntry (s : Server) (e e' : ℕ) (f : Entry → Entry) :
    (s.modifyEntry e f).lockedEntry e' =
      if e = e' then (s.entries[e]?.map fun entry => (f entry).locked).getD false
      else s.lockedEntry e' := by
  rw [Server.lockedEntry, Server.modifyEntry, List.getElem?_modify]
  split
  · rename_i h
    subst h
    cases s.entries[e]? <;> rfl
  · simp [Server.lockedEntry]

theorem Exclusive.congr {n : ℕ} {held : ℕ → ℕ} (h : Exclusive s n held)
    (hlocked : s'.locked = s.locked) (hentries : ∀ e, s'.lockedEntry e = s.lockedEntry e) :
    Exclusive s' n held :=
  ⟨hlocked ▸ h.server, fun e => by rw [hentries]; exact h.entries e⟩

theorem Exclusive.lock {n : ℕ} {held : ℕ → ℕ} (h : Exclusive s n held) (hs : s.lock = some s') :
    Exclusive s' (n + 1) held := by
  obtain ⟨hlocked, rfl⟩ := Server.lock_eq hs
  have hn := h.server
  rw [hlocked, if_neg Bool.false_ne_true] at hn
  exact ⟨by simp [hn], h.entries⟩

theorem Exclusive.unlock {n : ℕ} {held : ℕ → ℕ} (h : Exclusive s (n + 1) held) :
    Exclusive s.unlock n held := by
  refine ⟨?_, h.entries⟩
  have hn := h.server
  change n = 0
  split at hn <;> omega

theorem Exclusive.lockEntry {n : ℕ} {held : ℕ → ℕ} (h : Exclusive s n held)
    (hs : s.lockEntry e = some s') :
    Exclusive s' n fun e' => held e' + if decide (e = e') then 1 else 0 := by
  obtain ⟨entry, he, hlocked, rfl⟩ := Server.lockEntry_eq hs
  refine ⟨h.server, fun e' => ?_⟩
  have hheld := h.entries e'
  rw [lockedEntry_modifyEntry]
  by_cases hee : e = e'
  · subst hee
    rw [Server.lockedEntry, (entry_eq he).1, Option.map_some, Option.getD_some, hlocked] at hheld
    simp [(entry_eq he).1, hheld]
  · simp [hee, hheld]

theorem Exclusive.unlockEntry {n : ℕ} {held : ℕ → ℕ} {f : Entry → Entry}
    (h : Exclusive s n fun e' => held e' + if decide (e = e') then 1 else 0)
    (hf : ∀ entry, (f entry).locked = false) : Exclusive (s.modifyEntry e f) n held := by
  refine ⟨h.server, fun e' => ?_⟩
  have hheld := h.entries e'
  rw [lockedEntry_modifyEntry]
  by_cases hee : e = e'
  · subst hee
    have hfalse : (s.entries[e]?.map fun entry => (f entry).locked).getD false = false := by
      cases s.entries[e]? <;> simp [hf]
    rw [if_pos rfl, hfalse]
    simp only [decide_true, if_true] at hheld
    simp only [Bool.false_eq_true, if_false]
    split at hheld <;> omega
  · simpa [hee] using hheld

theorem Exclusive.check {n : ℕ} {held : ℕ → ℕ} {entry : Entry} (h : Exclusive s n held) :
    Exclusive (check s uri e entry file).1 n held := by
  rcases check_fst s uri e entry file with hs | ⟨sb, -, -, -, hs⟩
  · exact hs.symm ▸ h
  · rw [hs]
    refine h.congr rfl fun e' => ?_
    rw [lockedEntry_modifyEntry]
    split
    · rename_i hee
      subst hee
      rfl
    · rfl

theorem lockedEntry_append (s : Server) (entry : Entry) (hentry : entry.locked = false) (e : ℕ) :
    Server.lockedEntry { s with entries := s.entries ++ [entry] } e = s.lockedEntry e := by
  rw [Server.lockedEntry, Server.lockedEntry]
  rcases Nat.lt_trichotomy e s.entries.length with he | rfl | he
  · rw [List.getElem?_append_left he]
  · simp [hentry]
  · rw [List.getElem?_eq_none he.le, List.getElem?_eq_none]
    rw [List.length_append]
    exact he

theorem locked_entryCreate {entry : Entry} (h : entryCreate uri file = some entry) :
    entry.locked = false := by
  obtain ⟨sb, -, h⟩ := Option.bind_eq_some_iff.mp h
  split at h
  · obtain rfl := Option.some.inj h
    rfl
  · exact nomatch h

theorem exclusive_cons : ExclusivePool ⟨s, c :: cs⟩ ↔
    Exclusive s (cs.countP Serve.holdsServer + if c.holdsServer then 1 else 0) fun e =>
      cs.countP (·.holdsEntry e) + if c.holdsEntry e then 1 else 0 := by
  simp only [ExclusivePool, List.countP_cons]

theorem exclusive_step (h : ExclusivePool ⟨s, c :: cs⟩) (hstep : step s c file = some (s', new)) :
    ExclusivePool ⟨s', new ++ cs⟩ := by
  rw [exclusive_cons] at h
  cases step_cases hstep with
  | get hs => exact exclusive_cons.mpr (h.lock hs)
  | hit _ => exact exclusive_cons.mpr h.unlock
  | miss _ => exact exclusive_cons.mpr h.unlock
  | found hs => exact exclusive_cons.mpr (h.lockEntry hs)
  | valid _ _ => exact exclusive_cons.mpr h.check
  | invalid _ _ => exact exclusive_cons.mpr h.check
  | respond _ => exact h.unlockEntry fun _ => rfl
  | removing hs => exact exclusive_cons.mpr (h.lock hs)
  | remove _ _ => exact exclusive_cons.mpr (h.unlock.congr rfl fun _ => rfl)
  | destroy _ => exact h.unlockEntry fun _ => rfl
  | absent _ => exact h
  | create hentry =>
    exact exclusive_cons.mpr (h.congr rfl (lockedEntry_append s _ (locked_entryCreate hentry)))
  | setting hs => exact exclusive_cons.mpr (h.lock hs)
  | noDup _ _ => exact exclusive_cons.mpr h
  | takeDup _ _ => exact exclusive_cons.mpr (h.congr rfl fun _ => rfl)
  | waitDup hs => exact exclusive_cons.mpr (h.lockEntry hs)
  | dropDup _ =>
    exact exclusive_cons.mpr ((h.unlockEntry fun _ => rfl).congr rfl fun _ => rfl)
  | full _ _ => exact exclusive_cons.mpr h.unlock
  | set _ _ => exact h.unlock.congr rfl fun _ => rfl
  | refused hs => exact exclusive_cons.mpr (h.lockEntry hs)

/-- In every run a mutex is locked just in case one thread holds it. -/
theorem exclusive_run {cacheSize : UInt64} {events : List (Event Serve File)}
    {p : Pool Server Serve} (hrun : server.run ⟨create cacheSize, []⟩ events = some p) :
    ExclusivePool p := by
  refine System.run_invariant (A := fun _ _ _ => True) ?_ (fun _ h => h) ?_
    (fun h _ => exclusive_step h) ⟨rfl, fun _ => rfl⟩ (along_of_forall (fun _ _ _ => trivial) _)
    hrun
  · intro q cs cs' hperm h
    refine ⟨hperm.countP_eq _ ▸ h.server, fun e => ?_⟩
    have := h.entries e
    rwa [hperm.countP_eq] at this
  · intro q cs c h hc
    cases c with
    | get uri => exact exclusive_cons.mpr h
    | _ => exact nomatch hc

/-- A stuck thread removes an entry or waits for a duplicate. -/
theorem stuck_cases (h : locking.Stuck procs c) :
    (∃ uri e, c = .removing uri e) ∨ ∃ e dup, c = .waitDup e dup := by
  obtain ⟨m, d, hwaits, -, -⟩ := h.waits
  obtain ⟨m', hholds⟩ := h.holds
  cases c with
  | removing uri e => exact .inl ⟨uri, e, rfl⟩
  | waitDup e dup => exact .inr ⟨e, dup, rfl⟩
  | get uri => cases m' <;> exact nomatch hholds
  | setting e => cases m' <;> exact nomatch hholds
  | found uri e => cases m' <;> exact nomatch hholds
  | refused e => cases m' <;> exact nomatch hholds
  | _ => exact nomatch hwaits

theorem crossing_of_waitDup (h : locking.Stuck procs (.waitDup e dup)) : Crossing procs := by
  obtain ⟨m, d, hwaits, hholds, hd⟩ := h.waits
  obtain rfl := Option.some.inj hwaits
  rcases stuck_cases hd with ⟨uri, e', rfl⟩ | ⟨e', dup', rfl⟩
  · obtain rfl : e' = dup := of_decide_eq_true hholds
    exact ⟨uri, e', e, hd.mem, h.mem⟩
  · exact nomatch hholds

theorem deadlock_iff_crossing : locking.Deadlock procs ↔ Crossing procs := by
  constructor
  · intro h
    obtain ⟨c, hc⟩ := h.exists_stuck
    rcases stuck_cases hc with ⟨uri, e, rfl⟩ | ⟨e, dup, rfl⟩
    · obtain ⟨m, d, hwaits, hholds, hd⟩ := hc.waits
      obtain rfl := Option.some.inj hwaits
      rcases stuck_cases hd with ⟨uri', e', rfl⟩ | ⟨e', dup, rfl⟩
      · exact nomatch hholds
      · exact crossing_of_waitDup hd
    · exact crossing_of_waitDup hc
  · rintro ⟨uri, e, e', hr, hw⟩
    exact deadlock_pair hr hw rfl rfl rfl (decide_eq_true rfl)

/-- The two sides of a deadlock do not come together: the duplicate of a new entry is not one that
another thread is to remove, and the check of an entry does not fail while another thread waits
for it as a duplicate. -/
def KeepsApart (p : Pool Server Serve) : Serve → File → Prop
  | .takeDup e, _ => ∀ entry dup uri, p.shared.entry e = some entry →
      OrderedMap.get strings p.shared.cache entry.uri = some dup → .removing uri dup ∉ p.procs
  | .check _ e, file => ∀ entry e', p.shared.entry e = some entry → .waitDup e' e ∈ p.procs →
      Valid entry file
  | _, _ => True

/-- Only a check that fails makes a thread wait to remove an entry. -/
theorem removing_of_step (hstep : Step s file c s' new) (h : .removing uri e ∈ new) :
    ∃ entry, c = .check uri e ∧ s.entry e = some entry ∧ ¬ Valid entry file := by
  cases hstep with
  | invalid he hv =>
    obtain ⟨rfl, rfl⟩ := Serve.removing.inj (List.mem_singleton.mp h)
    exact ⟨_, rfl, he, hv⟩
  | _ => simp at h

/-- Only a duplicate that is found makes a thread wait for it. -/
theorem waitDup_of_step (hstep : Step s file c s' new) (h : .waitDup e dup ∈ new) :
    ∃ entry, c = .takeDup e ∧ s.entry e = some entry ∧
      OrderedMap.get strings s.cache entry.uri = some dup := by
  cases hstep with
  | takeDup he hget =>
    obtain ⟨rfl, rfl⟩ := Serve.waitDup.inj (List.mem_singleton.mp h)
    exact ⟨_, rfl, he, hget⟩
  | _ => simp at h

theorem not_crossing_step (h : ¬ Crossing (c :: cs)) (hc : KeepsApart ⟨s, c :: cs⟩ c file)
    (hstep : step s c file = some (s', new)) : ¬ Crossing (new ++ cs) := by
  rintro ⟨uri, e, e', hr, hw⟩
  have hstep := step_cases hstep
  rcases List.mem_append.mp hr with hr | hr <;> rcases List.mem_append.mp hw with hw | hw
  · obtain ⟨_, rfl, -⟩ := removing_of_step hstep hr
    obtain ⟨_, hc, -⟩ := waitDup_of_step hstep hw
    exact nomatch hc
  · obtain ⟨entry, rfl, he, hv⟩ := removing_of_step hstep hr
    exact hv (hc entry e' he (.tail _ hw))
  · obtain ⟨entry, rfl, he, hget⟩ := waitDup_of_step hstep hw
    exact hc entry e uri he hget (.tail _ hr)
  · exact h ⟨uri, e, e', .tail _ hr, .tail _ hw⟩

/-- A step that brings the two sides together ends in a deadlock. -/
theorem crossing_of_step (hc : ¬ KeepsApart ⟨s, c :: cs⟩ c file)
    (hstep : step s c file = some (s', new)) : Crossing (new ++ cs) := by
  cases step_cases hstep with
  | takeDup he hget =>
    simp only [KeepsApart, not_forall, not_not] at hc
    obtain ⟨entry, dup, uri, he', hget', hr⟩ := hc
    obtain rfl := Option.some.inj (he.symm.trans he')
    obtain rfl := Option.some.inj (hget.symm.trans hget')
    exact ⟨uri, _, _, List.mem_append_right _ (by simpa using hr), .head _⟩
  | noDup he hget =>
    simp only [KeepsApart, not_forall] at hc
    obtain ⟨entry, dup, uri, he', hget', -⟩ := hc
    obtain rfl := Option.some.inj (he.symm.trans he')
    exact nomatch hget.symm.trans hget'
  | valid he hv =>
    simp only [KeepsApart, not_forall] at hc
    obtain ⟨entry, e', he', -, hv'⟩ := hc
    obtain rfl := Option.some.inj (he.symm.trans he')
    exact absurd hv hv'
  | invalid he hv =>
    simp only [KeepsApart, not_forall] at hc
    obtain ⟨entry, e', he', hw, -⟩ := hc
    exact ⟨_, _, _, .head _, List.mem_append_right _ (by simpa using hw)⟩
  | _ => exact absurd trivial hc

theorem crossing_perm {cs' : List Serve} (h : cs.Perm cs') : Crossing cs ↔ Crossing cs' := by
  simp only [Crossing, h.mem_iff]

/-- There is no file. -/
def missing : File := ⟨none, false, false⟩

/-- Two requests for a file that is not in the cache, and a third one that finds it when it is
deleted, while the second one is to replace it. -/
def crossed : List (Event Serve File) :=
  [.start (.get []), .start (.get []), .turn 0 missing, .turn 0 missing, .turn 1 missing,
    .turn 1 missing, .turn 0 (readable 1 10), .turn 1 (readable 1 10), .turn 0 missing,
    .turn 0 missing, .turn 0 missing, .start (.get []), .turn 1 missing, .turn 1 missing,
    .turn 1 missing, .turn 1 missing, .turn 0 missing, .turn 0 missing]

end Libuo.FileServer
