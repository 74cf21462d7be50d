import Libuo.FileServerContents

/-!
# Responses from the cache

All threads together keep the entries fresh, so that no request is answered with what a file was
like before.
-/

namespace Libuo.FileServer
open CStrings CText HttpMsg Interleaving Interleaving.System

variable {name : Uri → List UInt8} {version : Uri → ℤ → Option (List UInt8)} {m m' : Contents}
  {s s' : Server} {c : Serve} {cs new : List Serve} {d : Disk} {uri : Uri} {e e' : ℕ}
  {entry entry' : Entry} {sb : Stat}

theorem length_step {file : File} (h : Step s file c s' new) (hcreate : ∀ uri, c ≠ .create uri) :
    s'.entries.length = s.entries.length := by
  have hlockEntry {n : ℕ} {s₁ : Server} (hs : s.lockEntry n = some s₁) :
      s₁.entries.length = s.entries.length := by
    obtain ⟨entry, -, -, rfl⟩ := Server.lockEntry_eq hs
    exact List.length_modify _ _ _
  cases h with
  | get hs | removing hs | setting hs => rw [(Server.lock_eq hs).2]
  | found hs | waitDup hs | refused hs => exact hlockEntry hs
  | valid _ _ | invalid _ _ =>
    rcases check_fst s _ _ _ file with hs | ⟨sb, -, -, -, hs⟩
    · rw [hs]
    · rw [hs]
      exact List.length_modify _ _ _
  | create _ => exact absurd rfl (hcreate _)
  | respond _ | destroy _ | dropDup _ => exact List.length_modify _ _ _
  | hit _ | miss _ | remove _ _ | absent _ | noDup _ _ | takeDup _ _ | full _ _ | set _ _ => rfl

/-- The freshness of an entry that the step is not about. -/
theorem fresh_kept {file : File} (h : Coherent name version ⟨m, c :: cs⟩)
    (hstep : Step m.server file c s' new)
    (hkept : ∀ entry', s'.entry e = some entry' →
      ∃ entry, m.server.entry e = some entry ∧ entry'.key = entry.key)
    (hblock : m'.blocks.getD e [] = m.blocks.getD e []) :
    ∀ entry', s'.entry e = some entry' →
      Fresh version entry' (m'.blocks.getD e []) ∨ ∃ c' ∈ new ++ cs, c'.drops e = true := by
  intro entry' hentry'
  obtain ⟨entry, hentry, hkey⟩ := hkept entry' hentry'
  rcases h.fresh e entry hentry with hfresh | ⟨c', hc', hdrops⟩
  · rw [hblock]
    exact .inl (hfresh.congr hkey)
  · rcases List.mem_cons.mp hc' with rfl | hcs
    · rcases drops_step hstep hdrops with ⟨c'', hc'', hdrops'⟩ | hnone
      · exact .inr ⟨c'', List.mem_append_left _ hc'', hdrops'⟩
      · rw [hnone] at hentry'
        cases hentry'
    · exact .inr ⟨c', List.mem_append_right _ hcs, hdrops⟩

/-- An entry that is checked is fresh, as no other thread has locked it. -/
theorem fresh_checked (h : Coherent name version ⟨m, .check uri e :: cs⟩)
    (he : m.server.entry e = some entry) :
    Fresh version entry (m.blocks.getD e []) ∧ entry.uri = uri := by
  constructor
  · rcases h.fresh e entry he with hfresh | ⟨c', hc', hdrops⟩
    · exact hfresh
    · rcases List.mem_cons.mp hc' with rfl | hcs
      · cases hdrops
      · rw [not_drops h.exclusive (decide_eq_true rfl) c' hcs] at hdrops
        cases hdrops
  · have hfound := h.named.found _ (.head _) (uri, e) rfl
    exact Option.some.inj ((uri?_eq he).symm.trans hfound)

/-- The response after the check of a fresh entry. -/
theorem checkContents_served (hfresh : Fresh version entry (m.blocks.getD e []))
    (huri : entry.uri = uri) (hd : Dated version uri d) :
    (checkContents name m uri e entry d).served = m.served ++ [⟨uri, d, plain name uri d⟩] := by
  subst huri
  rw [checkContents]
  cases hstat : d.stat with
  | none =>
    have hnone : d.readable = none := by rw [Disk.readable, hstat]; rfl
    rw [plain_unreadable hnone]
    rfl
  | some sb =>
    have hversion := hd.version sb hstat
    dsimp only
    by_cases hmtime : sb.mtime = entry.mtime
    · -- what was read at the time of the entry is what would be read now
      rw [if_pos hmtime]
      rw [hmtime, hfresh.1] at hversion
      obtain ⟨sb', hstat', -, -, -, hlength⟩ := readable_eq_some hversion.symm
      obtain rfl : sb = sb' := Option.some.inj (hstat.symm.trans hstat')
      have hsize : entry.size = sb.size :=
        UInt64.toNat_inj.mp (hfresh.2.symm.trans hlength)
      rw [plain_readable hversion.symm hstat, hsize]
      rfl
    · rw [if_neg hmtime]
      by_cases hopens : d.opens = true
      · rw [if_pos hopens]
        by_cases hreads : d.file.reads = true
        · rw [if_pos hreads, plain_readable (readable_of hstat hopens hreads
            (hd.regular sb hstat hopens hreads)) hstat]
          rfl
        · rw [if_neg hreads, plain_unreadable (unreadable_of hstat fun h => hreads h.2)]
          rfl
      · rw [if_neg hopens, plain_unreadable (unreadable_of hstat fun h => hopens h.1)]
        rfl

/-- After the check an entry is fresh or about to be destroyed. -/
theorem fresh_check (hlength : e < m.blocks.length)
    (hfresh : Fresh version entry (m.blocks.getD e [])) (huri : entry.uri = uri)
    (hd : Dated version uri d) (he : m.server.entry e = some entry)
    (h : (check m.server uri e entry d.file).1.entry e = some entry') :
    Fresh version entry' ((checkContents name m uri e entry d).blocks.getD e []) ∨
      (check m.server uri e entry d.file).2 = .removing uri e := by
  subst huri
  rcases check_snd m.server entry.uri e entry d.file with ⟨⟨sb, hstat, hvalid⟩, -⟩ | ⟨-, hinvalid⟩
  · left
    replace hstat : d.stat = some sb := hstat
    by_cases hmtime : sb.mtime = entry.mtime
    · have hsame : (check m.server entry.uri e entry d.file).1 = m.server := by
        rw [check, show d.file.stat = some sb from hstat]
        dsimp only
        rw [if_pos hmtime]
      have hblocks : (checkContents name m entry.uri e entry d).blocks = m.blocks := by
        rw [checkContents, hstat]
        dsimp only
        rw [if_pos hmtime]
        rfl
      rw [hsame, he] at h
      obtain rfl := Option.some.inj h
      rw [hblocks]
      exact hfresh
    · obtain ⟨hopens, hreads⟩ := hvalid.resolve_left hmtime
      have hnew : (check m.server entry.uri e entry d.file).1 =
          m.server.modifyEntry e fun entry =>
            { entry with mtime := sb.mtime, size := sb.size } := by
        rw [check, show d.file.stat = some sb from hstat]
        dsimp only
        rw [if_neg hmtime, Server.tryRefresh, if_pos hopens]
      have hblocks : (checkContents name m entry.uri e entry d).blocks =
          m.blocks.set e (d.read sb) := by
        rw [checkContents, hstat]
        dsimp only
        rw [if_neg hmtime, if_pos (show d.opens = true from hopens)]
        rfl
      rw [hnew] at h
      obtain ⟨entry₁, hentry₁, rfl, -⟩ := entry_modifyEntry h
      rw [(entry_eq he).1] at hentry₁
      obtain rfl := Option.some.inj hentry₁
      rw [hblocks, if_pos rfl, List.getD_eq_getElem?_getD, List.getElem?_set_self hlength,
        Option.getD_some]
      refine ⟨?_, (reads_iff hstat).mp hreads⟩
      rw [← readable_of hstat hopens hreads (hd.regular sb hstat hopens hreads)]
      exact hd.version sb hstat
  · exact .inr hinvalid

theorem blocks_check (name : Uri → List UInt8) (m : Contents) (uri : Uri) {e e' : ℕ}
    (entry : Entry) (d : Disk) (h : e ≠ e') :
    (checkContents name m uri e entry d).blocks.getD e' [] = m.blocks.getD e' [] := by
  rw [checkContents]
  split
  · rfl
  · split
    · rfl
    · split
      · change (m.blocks.set e _).getD e' [] = _
        rw [List.getD_eq_getElem?_getD, List.getElem?_set_ne h, List.getD_eq_getElem?_getD]
      · rfl

theorem length_checkContents (name : Uri → List UInt8) (m : Contents) (uri : Uri) (e : ℕ)
    (entry : Entry) (d : Disk) :
    (checkContents name m uri e entry d).blocks.length = m.blocks.length := by
  rw [checkContents]
  split
  · rfl
  · split
    · rfl
    · split
      · exact List.length_set
      · rfl

/-- The check of an entry changes no other one. -/
theorem keeps_check {file : File} (h : (check s uri e entry file).1.entry e' = some entry')
    (hne : e ≠ e') : s.entry e' = some entry' := by
  rcases check_fst s uri e entry file with hs | ⟨sb, -, -, -, hs⟩
  · rwa [hs] at h
  · rw [hs] at h
    obtain ⟨entry₁, hentry₁, rfl, hlive⟩ := entry_modifyEntry h
    rw [if_neg hne] at hlive ⊢
    rw [Server.entry, hentry₁]
    simp [hlive]

theorem coherent_check (h : Coherent name version ⟨m, .check uri e :: cs⟩)
    (hd : Dated version uri d) (he : m.server.entry e = some entry) :
    Coherent name version ⟨{ checkContents name m uri e entry d with
        server := (check m.server uri e entry d.file).1 },
      [(check m.server uri e entry d.file).2] ++ cs⟩ := by
  obtain ⟨hfresh, huri⟩ := fresh_checked h he
  have hstep : step m.server (.check uri e) d.file =
      some ((check m.server uri e entry d.file).1, [(check m.server uri e entry d.file).2]) := by
    rw [step, he]
    rfl
  have hlt : e < m.blocks.length := h.length ▸ lt_of_entry he
  refine ⟨named_step h.named hstep, exclusive_step h.exclusive hstep, ?_, ?_, ?_⟩
  · rw [length_checkContents, h.length]
    exact (length_step (step_cases hstep) fun _ hc => by cases hc).symm
  · intro e'
    by_cases hee : e = e'
    · subst hee
      intro entry' hentry'
      rcases fresh_check hlt hfresh huri hd he hentry' with hf | hremoving
      · exact .inl hf
      · refine .inr ⟨_, .head _, ?_⟩
        rw [hremoving]
        exact decide_eq_true rfl
    · exact fresh_kept h (step_cases hstep)
        (fun entry' hentry' => ⟨entry', keeps_check hentry' hee, rfl⟩)
        (blocks_check name m uri entry d hee)
  · intro r hr
    rw [checkContents_served hfresh huri hd] at hr
    rcases List.mem_append.mp hr with hr | hr
    · exact h.served r hr
    · rw [List.mem_singleton.mp hr]

/-- The response after an entry has been created, or not. -/
theorem createContents_served (name : Uri → List UInt8) (m : Contents) (uri : Uri) (d : Disk) :
    (createContents name m uri d).served = m.served ++ [⟨uri, d, plain name uri d⟩] := by
  rw [createContents, plain]
  cases hstat : d.stat with
  | none => rfl
  | some sb => cases hentry : entryCreate uri d.file <;> rfl

theorem fresh_create (name : Uri → List UInt8) (m : Contents) (hd : Dated version uri d)
    (h : entryCreate uri d.file = some entry) :
    (∃ sb, d.stat = some sb ∧ (createContents name m uri d).blocks = m.blocks ++ [d.read sb] ∧
      Fresh version entry (d.read sb)) := by
  obtain ⟨sb, hstat, hentry⟩ := Option.bind_eq_some_iff.mp h
  replace hstat : d.stat = some sb := hstat
  split at hentry
  · rename_i hall
    simp only [Bool.and_eq_true] at hall
    obtain rfl := Option.some.inj hentry
    refine ⟨sb, hstat, ?_, ?_, (reads_iff hstat).mp hall.2⟩
    · rw [createContents, hstat, h]
      rfl
    · rw [← readable_of hstat hall.1.2 hall.2 hall.1.1]
      exact hd.version sb hstat
  · cases hentry

theorem coherent_create (h : Coherent name version ⟨m, .create uri :: cs⟩)
    (hd : Dated version uri d) (hstep : step m.server (.create uri) d.file = some (s', new)) :
    Coherent name version ⟨{ createContents name m uri d with server := s' }, new ++ cs⟩ := by
  have hserved : ∀ r ∈ (createContents name m uri d).served,
      r.set = plain name r.uri r.disk := by
    intro r hr
    rw [createContents_served] at hr
    rcases List.mem_append.mp hr with hr | hr
    · exact h.served r hr
    · rw [List.mem_singleton.mp hr]
  cases hentry : entryCreate uri d.file with
  | none =>
    have hs : step m.server (.create uri) d.file = some (m.server, []) := by
      rw [step, hentry]
    obtain ⟨rfl, rfl⟩ := Prod.mk.inj (Option.some.inj (hs.symm.trans hstep))
    have hblocks : (createContents name m uri d).blocks = m.blocks := by
      rw [createContents, hentry]
      split
      · cases ‹none = some _›
      · rfl
    refine ⟨named_step h.named hstep, exclusive_step h.exclusive hstep, ?_, ?_, hserved⟩
    · rw [hblocks]
      exact h.length
    · exact fun e => fresh_kept h (step_cases hstep) (keeps_refl _ e) (by rw [hblocks])
  | some entry =>
    have hs : step m.server (.create uri) d.file =
        some ({ m.server with entries := m.server.entries ++ [entry] },
          [.setting m.server.entries.length]) := by
      rw [step, hentry]
    obtain ⟨rfl, rfl⟩ := Prod.mk.inj (Option.some.inj (hs.symm.trans hstep))
    obtain ⟨sb, -, hblocks, hfresh⟩ := fresh_create name m hd hentry
    refine ⟨named_step h.named hstep, exclusive_step h.exclusive hstep, ?_, ?_, hserved⟩
    · rw [hblocks, List.length_append, List.length_append, h.length]
      rfl
    · intro e entry' hentry'
      have hlt := lt_of_entry hentry'
      rw [List.length_append, List.length_singleton] at hlt
      rcases Nat.lt_succ_iff_lt_or_eq.mp hlt with hlt | rfl
      · refine fresh_kept h (step_cases hstep) (fun entry' hentry' => ⟨entry', ?_, rfl⟩) ?_ entry'
          hentry'
        · rw [Server.entry, List.getElem?_append_left hlt] at hentry'
          exact hentry'
        · rw [hblocks, List.getD_eq_getElem?_getD, List.getElem?_append_left (h.length ▸ hlt),
            List.getD_eq_getElem?_getD]
      · left
        have hnew := (entry_eq hentry').1
        rw [List.getElem?_concat_length] at hnew
        obtain rfl := Option.some.inj hnew
        rw [hblocks, List.getD_eq_getElem?_getD, ← h.length, List.getElem?_concat_length]
        exact hfresh

theorem coherent_other (h : Coherent name version ⟨m, c :: cs⟩)
    (hstep : step m.server c d.file = some (s', new)) (hcheck : ∀ uri e, c ≠ .check uri e)
    (hcreate : ∀ uri, c ≠ .create uri) :
    Coherent name version ⟨{ m with server := s' }, new ++ cs⟩ := by
  have hs := step_cases hstep
  refine ⟨named_step h.named hstep, exclusive_step h.exclusive hstep, ?_, ?_, h.served⟩
  · exact h.length.trans (length_step hs hcreate).symm
  · exact fun e => fresh_kept h hs (keeps_step hs hcheck hcreate e) rfl

/-- The looks at a file find it as the time of its last modification tells. -/
def Looks (version : Uri → ℤ → Option (List UInt8)) (_ : Pool Contents Serve) (c : Serve)
    (d : Disk) : Prop := ∀ uri, c.request = some uri → Dated version uri d

theorem coherent_step (h : Coherent name version ⟨m, c :: cs⟩)
    (hc : Looks version ⟨m, c :: cs⟩ c d) (hstep : (contents name).step m c d = some (m', new)) :
    Coherent name version ⟨m', new ++ cs⟩ := by
  obtain ⟨⟨s', new'⟩, hs, heq⟩ := Option.map_eq_some_iff.mp hstep
  obtain ⟨rfl, rfl⟩ := Prod.mk.inj heq
  cases c with
  | check uri e =>
    obtain ⟨entry, he, hr⟩ := Option.map_eq_some_iff.mp hs
    obtain ⟨rfl, rfl⟩ := Prod.mk.inj hr
    have htouch : touch name m (.check uri e) d = checkContents name m uri e entry d := by
      rw [touch, he]
      rfl
    rw [htouch]
    exact coherent_check h (hc uri rfl) he
  | create uri => exact coherent_create h (hc uri rfl) hs
  | _ => exact coherent_other h hs (fun _ _ hc => by cases hc) fun _ hc => by cases hc

theorem coherent_perm {cs' : List Serve} (hperm : cs.Perm cs')
    (h : Coherent name version ⟨m, cs⟩) : Coherent name version ⟨m, cs'⟩ := by
  refine ⟨⟨h.named.cached, fun c hc => h.named.found c (hperm.mem_iff.mpr hc)⟩,
    ⟨hperm.countP_eq _ ▸ h.exclusive.server, fun e => ?_⟩, h.length, fun e entry he => ?_,
    h.served⟩
  · have := h.exclusive.entries e
    rwa [hperm.countP_eq] at this
  · exact (h.fresh e entry he).imp_right fun ⟨c, hc, hdrops⟩ => ⟨c, hperm.mem_iff.mp hc, hdrops⟩

/-- The server before the first request. -/
def opened (cacheSize : UInt64) : Pool Contents Serve := ⟨⟨create cacheSize, [], []⟩, []⟩

theorem coherent_opened (name : Uri → List UInt8) (version : Uri → ℤ → Option (List UInt8))
    (cacheSize : UInt64) : Coherent name version (opened cacheSize) where
  named := named_create cacheSize
  exclusive := ⟨rfl, fun _ => rfl⟩
  length := rfl
  fresh _ _ h := by cases h
  served _ h := absurd h List.not_mem_nil

theorem coherent_run {cacheSize : UInt64} {events : List (Event Serve Disk)}
    {p : Pool Contents Serve}
    (hevents : (contents name).Along (Looks version) (opened cacheSize) events)
    (hrun : (contents name).run (opened cacheSize) events = some p) :
    Coherent name version p := by
  refine System.run_invariant coherent_perm (fun _ hc => hc) ?_ coherent_step
    (coherent_opened name version cacheSize) hevents hrun
  intro m cs c h hc
  cases c with
  | get uri =>
    refine ⟨⟨h.named.cached, List.forall_mem_cons.mpr ⟨fun b hb => ?_, h.named.found⟩⟩,
      exclusive_cons.mpr h.exclusive, h.length, fun e entry he => ?_, h.served⟩
    · cases hb
    · exact (h.fresh e entry he).imp_right fun ⟨c, hc, hdrops⟩ => ⟨c, .tail _ hc, hdrops⟩
  | _ => cases hc

/-- The request of a thread that has not yet set its response. -/
def Serve.pending : Serve → Option Uri
  | .get uri | .lookUp uri | .found uri _ | .check uri _ | .create uri => some uri
  | _ => none

/-- The request that comes with an event. -/
def asked : Event Serve Disk → Option Uri
  | .start c => c.pending
  | .turn _ _ => none

/-- The requests with a response, and those that still wait for one. -/
def requests (p : Pool Contents Serve) : List Uri :=
  p.shared.served.map Served.uri ++ p.procs.filterMap Serve.pending

theorem served_check (name : Uri → List UInt8) (m : Contents) (uri : Uri) (e : ℕ) (entry : Entry)
    (d : Disk) : (checkContents name m uri e entry d).served.map Served.uri =
      m.served.map Served.uri ++ [uri] := by
  have hserve (m : Contents) (set : Msg → Msg) :
      (m.serve uri d set).served.map Served.uri = m.served.map Served.uri ++ [uri] := by
    simp [Contents.serve]
  rw [checkContents]
  split
  · exact hserve _ _
  · split
    · exact hserve _ _
    · split <;> exact hserve _ _

/-- A step answers the request of its thread, or keeps it. -/
theorem served_step (h : (contents name).step m c d = some (m', new)) :
    m'.served.map Served.uri ++ new.filterMap Serve.pending =
      m.served.map Served.uri ++ c.pending.toList := by
  obtain ⟨⟨s', new'⟩, hs, heq⟩ := Option.map_eq_some_iff.mp h
  obtain ⟨rfl, rfl⟩ := Prod.mk.inj heq
  change (touch name m c d).served.map Served.uri ++ _ = _
  cases step_cases hs with
  | valid he _ | invalid he _ =>
    rw [touch, he, Option.map_some, Option.getD_some, served_check]
    exact List.append_nil _
  | absent _ | create _ =>
    rw [touch, createContents_served, List.map_append]
    exact List.append_nil _
  | _ => rfl

theorem requests_run {events : List (Event Serve Disk)} {p p' : Pool Contents Serve}
    (hrun : (contents name).run p events = some p') :
    (requests p').Perm (requests p ++ events.filterMap asked) := by
  induction events generalizing p with
  | nil =>
    obtain rfl := Option.some.inj hrun
    rw [List.filterMap_nil, List.append_nil]
  | cons event events ih =>
    obtain ⟨p₁, hnext, hrun⟩ := Option.bind_eq_some_iff.mp hrun
    refine (ih hrun).trans ?_
    cases event with
    | start c =>
      obtain ⟨-, rfl⟩ := System.next_start hnext
      have hrequests : requests ⟨p.shared, p.procs ++ [c]⟩ =
          requests p ++ c.pending.toList := by
        rw [requests, requests, List.filterMap_append, ← List.append_assoc]
        cases hc : c.pending <;> simp [hc]
      have hasked : (Event.start c :: events).filterMap asked =
          c.pending.toList ++ events.filterMap asked := by
        cases hc : c.pending <;> simp [asked, hc]
      rw [hrequests, hasked, List.append_assoc]
    | turn i d =>
      obtain ⟨l₁, c, l₂, m', new, hprocs, -, hstep, rfl⟩ := System.next_turn hnext
      have hasked : (Event.turn i d :: events).filterMap asked = events.filterMap asked := rfl
      rw [hasked]
      refine List.Perm.append_right _ ?_
      rw [requests, requests, hprocs]
      have hserved := served_step hstep
      have hone : (c :: l₂).filterMap Serve.pending =
          c.pending.toList ++ l₂.filterMap Serve.pending := by
        cases hc : c.pending <;> simp [hc]
      rw [List.filterMap_append, List.filterMap_append, List.filterMap_append, hone]
      -- the request of the step moves past those of the threads before it
      have hnew : (m'.served.map Served.uri ++ (l₁.filterMap Serve.pending ++
            (new.filterMap Serve.pending ++ l₂.filterMap Serve.pending))).Perm
          ((m'.served.map Served.uri ++ new.filterMap Serve.pending) ++
            (l₁.filterMap Serve.pending ++ l₂.filterMap Serve.pending)) := by
        rw [List.append_assoc]
        exact List.Perm.append_left _ (List.perm_append_comm_assoc _ _ _)
      have hold : (p.shared.served.map Served.uri ++ (l₁.filterMap Serve.pending ++
            (c.pending.toList ++ l₂.filterMap Serve.pending))).Perm
          ((p.shared.served.map Served.uri ++ c.pending.toList) ++
            (l₁.filterMap Serve.pending ++ l₂.filterMap Serve.pending)) := by
        rw [List.append_assoc]
        exact List.Perm.append_left _ (List.perm_append_comm_assoc _ _ _)
      rw [hserved] at hnew
      exact hnew.trans hold.symm

/-- A file with two bytes, and what it is after one of them has been taken away. -/
def shrinks (mtime : ℤ) : Option (List UInt8) := if mtime = 1 then some [65, 66] else some [65]

def before : Disk := ⟨some ⟨true, 1, 2⟩, true, [65, 66]⟩

def after : Disk := ⟨some ⟨true, 2, 1⟩, true, [65]⟩

/-- Two requests, one before the file shrinks and one after it. -/
def around : List (Event Serve Disk) :=
  .start (.get [47]) :: List.replicate 6 (.turn 0 before) ++
    .start (.get [47]) :: List.replicate 5 (.turn 0 after)

theorem looks_around :
    (contents fun uri => uri).Along (Looks fun _ => shrinks) (opened 100) around := by
  have hbefore (uri : Uri) : Dated (fun _ => shrinks) uri before :=
    ⟨fun sb h => by cases h; rfl, fun sb h _ _ => by cases h; rfl⟩
  have hafter (uri : Uri) : Dated (fun _ => shrinks) uri after :=
    ⟨fun sb h => by cases h; rfl, fun sb h _ _ => by cases h; rfl⟩
  have hlook {q : Pool Contents Serve} {c : Serve} {d : Disk}
      (hd : ∀ uri, Dated (fun _ => shrinks) uri d) : Looks (fun _ => shrinks) q c d :=
    fun uri _ => hd uri
  exact along_start rfl <| along_turn rfl (hlook hbefore) rfl <|
    along_turn rfl (hlook hbefore) rfl <| along_turn rfl (hlook hbefore) rfl <|
    along_turn rfl (hlook hbefore) rfl <| along_turn rfl (hlook hbefore) rfl <|
    along_turn rfl (hlook hbefore) rfl <| along_start rfl <|
    along_turn rfl (hlook hafter) rfl <| along_turn rfl (hlook hafter) rfl <|
    along_turn rfl (hlook hafter) rfl <| along_turn rfl (hlook hafter) rfl <|
    along_turn rfl (hlook hafter) rfl trivial

end Libuo.FileServer
