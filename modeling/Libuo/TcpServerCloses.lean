import Libuo.TcpServerConns
import Mathlib.Data.List.Nodup

/-!
# Descriptors are closed twice

A connection closes its descriptor, its handlers run, and when it is destroyed it calls
`shutdown` and `close` for the number once more. By then the number may belong to another
connection.
-/

namespace Libuo.TcpServer
open Interleaving Interleaving.System
open BlockingQueue (Queue Call)

/-- The connection of a callback that has closed its descriptor, and will destroy it. -/
def Thread.closing? : Thread → Option Conn
  | .notify c _ | .closed c | .shut c => some c
  | _ => none

def holding (procs : List Thread) : List Conn := procs.filterMap Thread.holding?

def closing (procs : List Thread) : List Conn := procs.filterMap Thread.closing?

/-- A `close` for a connection. -/
def Logged.isCloseOf (id : ℕ) (l : Logged) : Bool := l.call = .close ∧ l.conn = id

/-- A `close` of the descriptor of a connection, for whichever connection it is called. -/
def Logged.closes (id : ℕ) (l : Logged) : Bool := l.call = .close ∧ l.hit = some id

/-- No number is handed out that a connection has which is closed and not yet destroyed. -/
def KeepsNumbers (p : Pool Server Thread) (c : Thread) (x : Input) : Prop :=
  c = .accept ∨ c = .connect → ∀ conn ∈ closing p.procs, conn.sockfd ≠ x.sockfd

/-- The descriptor of each destroyed connection has been closed once, and no call has hit that
of another connection. -/
structure ClosedOnce (s : Server) : Prop where
  once : ∀ id ∈ s.destroyed, s.log.countP (Logged.closes id) = 1
  own : ∀ l ∈ s.log, l.hit = none ∨ l.hit = some l.conn

variable {s s' : Server} {c : Thread} {cs cs' new : List Thread} {x : Input} {conn : Conn}
  {count : ℕ} {log : List Logged} {destroyed : List ℕ} {opens opens' closed closed' : List Conn}
  {owner : ℤ → Option ℕ} {hit : Option ℕ}

/-- The numbers of the connections, and the calls of `close` made for each. -/
structure Counted (count : ℕ) (log : List Logged) (destroyed : List ℕ)
    (opens closed : List Conn) : Prop where
  distinct : (opens.map Conn.id ++ (closed.map Conn.id ++ destroyed)).Nodup
  lt : ∀ id ∈ opens.map Conn.id ++ (closed.map Conn.id ++ destroyed), id < count
  calls : ∀ id, log.countP (Logged.isCloseOf id) =
    (closed.map Conn.id).count id + 2 * destroyed.count id

theorem Counted.perm (hopens : opens.Perm opens') (hclosed : closed.Perm closed')
    (h : Counted count log destroyed opens closed) :
    Counted count log destroyed opens' closed' := by
  have hids : (opens.map Conn.id ++ (closed.map Conn.id ++ destroyed)).Perm
      (opens'.map Conn.id ++ (closed'.map Conn.id ++ destroyed)) :=
    (hopens.map _).append ((hclosed.map _).append_right _)
  refine ⟨hids.nodup_iff.mp h.distinct, fun id hid => h.lt id (hids.mem_iff.mpr hid), fun id => ?_⟩
  rw [h.calls, (hclosed.map _).count_eq]

theorem Counted.sublist (hopens : opens'.Sublist opens)
    (h : Counted count log destroyed opens closed) : Counted count log destroyed opens' closed := by
  have hids : (opens'.map Conn.id ++ (closed.map Conn.id ++ destroyed)).Sublist
      (opens.map Conn.id ++ (closed.map Conn.id ++ destroyed)) :=
    (hopens.map _).append (.refl _)
  exact ⟨hids.nodup h.distinct, fun id hid => h.lt id (hids.subset hid), h.calls⟩

theorem Counted.open {sockfd : ℤ} {b : Bool} (h : Counted count log destroyed opens closed) :
    Counted (count + 1) log destroyed (⟨count, sockfd, b⟩ :: opens) closed := by
  refine ⟨List.nodup_cons.mpr ⟨fun hid => ?_, h.distinct⟩, fun id hid => ?_, h.calls⟩
  · exact Nat.lt_irrefl _ (h.lt _ hid)
  · rcases List.mem_cons.mp hid with rfl | hid
    · exact Nat.lt_succ_self _
    · exact Nat.lt_succ_of_lt (h.lt id hid)

theorem Counted.close (h : Counted count log destroyed (conn :: opens) closed) :
    Counted count (⟨.close, conn.id, hit⟩ :: log) destroyed opens (conn :: closed) := by
  have hids : (conn.id :: (opens.map Conn.id ++ (closed.map Conn.id ++ destroyed))).Perm
      (opens.map Conn.id ++ (conn.id :: (closed.map Conn.id ++ destroyed))) :=
    List.perm_middle.symm
  refine ⟨hids.nodup_iff.mp h.distinct, fun id hid => h.lt id (hids.mem_iff.mpr hid), fun id => ?_⟩
  simp [List.countP_cons, List.count_cons, Logged.isCloseOf, h.calls id]
  omega

theorem Counted.shutdown (h : Counted count log destroyed opens closed) :
    Counted count (⟨.shutdown, conn.id, hit⟩ :: log) destroyed opens closed := by
  refine ⟨h.distinct, h.lt, fun id => ?_⟩
  rw [List.countP_cons_of_neg (by simp [Logged.isCloseOf]), h.calls]

theorem Counted.closeAgain (h : Counted count log destroyed opens (conn :: closed)) :
    Counted count (⟨.close, conn.id, hit⟩ :: log) (conn.id :: destroyed) opens closed := by
  have hids : (opens.map Conn.id ++ (conn.id :: (closed.map Conn.id ++ destroyed))).Perm
      (opens.map Conn.id ++ (closed.map Conn.id ++ (conn.id :: destroyed))) :=
    List.perm_middle.symm.append_left _
  refine ⟨hids.nodup_iff.mp h.distinct, fun id hid => h.lt id (hids.mem_iff.mpr hid), fun id => ?_⟩
  simp [List.countP_cons, List.count_cons, Logged.isCloseOf, h.calls id]
  split <;> omega

/-- A destroyed connection is not among the others, and is destroyed once. -/
theorem Counted.count_destroyed (h : Counted count log destroyed opens closed) {id : ℕ}
    (hid : id ∈ destroyed) : (closed.map Conn.id).count id = 0 ∧ destroyed.count id = 1 := by
  obtain ⟨-, hnodup, hdisjoint⟩ := List.nodup_append.mp (List.nodup_append.mp h.distinct).2.1
  refine ⟨List.count_eq_zero.mpr fun hmem => ?_, List.count_eq_one_of_mem hnodup hid⟩
  exact hdisjoint id hmem id hid rfl

theorem counted_step
    (h : Counted s.count s.log s.destroyed (holding (c :: cs)) (closing (c :: cs)))
    (hstep : step s c x = some (s', new)) :
    Counted s'.count s'.log s'.destroyed (holding (new ++ cs)) (closing (new ++ cs)) := by
  cases step_cases hstep with
  | accept _ _ _ _ | connect _ _ => exact h.open
  | leave _ _ => exact h.sublist ((List.sublist_cons_self _ cs).filterMap _)
  | close _ _ | closeClient _ => exact h.close
  | shutdown => exact h.shutdown
  | closeAgain => exact h.closeAgain
  | drain _ hq | drained _ hq _ | drop _ hq _ | finishing _ hq | dropLast _ hq | stop hq
  | stopped hq | notify _ hq | notified _ hq =>
    obtain ⟨q', calls, -, rfl, -⟩ := queueStep_cases hq
    exact h
  | _ => exact h

/-- An open connection has its descriptor, and nobody has the number of a closed one. -/
structure Owned (owner : ℤ → Option ℕ) (log : List Logged) (destroyed : List ℕ)
    (opens closed : List Conn) : Prop where
  held : ∀ conn ∈ opens, owner conn.sockfd = some conn.id
  free : ∀ conn ∈ closed, owner conn.sockfd = none
  own : ∀ l ∈ log, l.hit = none ∨ l.hit = some l.conn
  closes : ∀ id, log.countP (Logged.closes id) =
    (closed.map Conn.id).count id + destroyed.count id

theorem Owned.perm (hopens : opens.Perm opens') (hclosed : closed.Perm closed')
    (h : Owned owner log destroyed opens closed) : Owned owner log destroyed opens' closed' := by
  refine ⟨fun conn hmem => h.held conn (hopens.mem_iff.mpr hmem),
    fun conn hmem => h.free conn (hclosed.mem_iff.mpr hmem), h.own, fun id => ?_⟩
  rw [h.closes, (hclosed.map _).count_eq]

theorem Owned.sublist (hopens : opens'.Sublist opens)
    (h : Owned owner log destroyed opens closed) : Owned owner log destroyed opens' closed :=
  ⟨fun conn hmem => h.held conn (hopens.subset hmem), h.free, h.own, h.closes⟩

theorem Owned.open {sockfd : ℤ} {b : Bool} (h : Owned owner log destroyed opens closed)
    (hfree : owner sockfd = none) (hclosed : ∀ conn ∈ closed, conn.sockfd ≠ sockfd) :
    Owned (Function.update owner sockfd (some count)) log destroyed (⟨count, sockfd, b⟩ :: opens)
      closed := by
  refine ⟨List.forall_mem_cons.mpr ⟨Function.update_self _ _ _, fun conn hmem => ?_⟩,
    fun conn hmem => ?_, h.own, h.closes⟩
  · have howner := h.held conn hmem
    rw [Function.update_of_ne, howner]
    intro he
    rw [he, hfree] at howner
    exact nomatch howner
  · rw [Function.update_of_ne (hclosed conn hmem), h.free conn hmem]

theorem Owned.close (h : Owned owner log destroyed (conn :: opens) closed)
    (hdistinct : ((conn :: opens).map Conn.id).Nodup) :
    Owned (Function.update owner conn.sockfd none) (⟨.close, conn.id, owner conn.sockfd⟩ :: log)
      destroyed opens (conn :: closed) := by
  obtain ⟨hconn, hopens⟩ := List.forall_mem_cons.mp h.held
  refine ⟨fun conn' hmem => ?_, List.forall_mem_cons.mpr ⟨Function.update_self _ _ _,
    fun conn' hmem => ?_⟩, List.forall_mem_cons.mpr ⟨.inr hconn, h.own⟩, fun id => ?_⟩
  · rw [Function.update_of_ne, hopens conn' hmem]
    intro he
    have hid : conn'.id = conn.id := Option.some.inj ((hopens conn' hmem).symm.trans (he ▸ hconn))
    exact (List.nodup_cons.mp hdistinct).1 (hid ▸ List.mem_map_of_mem hmem)
  · by_cases he : conn'.sockfd = conn.sockfd
    · rw [he, Function.update_self]
    · rw [Function.update_of_ne he, h.free conn' hmem]
  · simp [List.countP_cons, List.count_cons, Logged.closes, hconn, h.closes id]
    omega

theorem Owned.shutdown (h : Owned owner log destroyed opens (conn :: closed)) :
    Owned owner (⟨.shutdown, conn.id, owner conn.sockfd⟩ :: log) destroyed opens
      (conn :: closed) := by
  refine ⟨h.held, h.free, List.forall_mem_cons.mpr ⟨.inl (h.free conn (.head _)), h.own⟩,
    fun id => ?_⟩
  rw [List.countP_cons_of_neg (by simp [Logged.closes]), h.closes]

/-- The number of a connection that is destroyed is nobody's. -/
theorem Owned.closeAgain (h : Owned owner log destroyed opens (conn :: closed)) :
    Owned (Function.update owner conn.sockfd none) (⟨.close, conn.id, owner conn.sockfd⟩ :: log)
      (conn.id :: destroyed) opens closed := by
  obtain ⟨hconn, hclosed⟩ := List.forall_mem_cons.mp h.free
  have howner : Function.update owner conn.sockfd none = owner := by
    rw [← hconn, Function.update_eq_self]
  rw [howner]
  refine ⟨h.held, hclosed, List.forall_mem_cons.mpr ⟨.inl hconn, h.own⟩, fun id => ?_⟩
  simp [List.count_cons, Logged.closes, hconn, h.closes id]
  omega

theorem owned_step
    (hcount : Counted s.count s.log s.destroyed (holding (c :: cs)) (closing (c :: cs)))
    (h : Owned s.owner s.log s.destroyed (holding (c :: cs)) (closing (c :: cs)))
    (hc : KeepsNumbers ⟨s, c :: cs⟩ c x) (hstep : step s c x = some (s', new)) :
    Owned s'.owner s'.log s'.destroyed (holding (new ++ cs)) (closing (new ++ cs)) := by
  cases step_cases hstep with
  | accept _ _ hfree _ => exact h.open hfree (hc (.inl rfl))
  | connect _ hfree => exact h.open hfree (hc (.inr rfl))
  | leave _ _ => exact h.sublist ((List.sublist_cons_self _ cs).filterMap _)
  | close _ _ | closeClient _ => exact h.close (List.nodup_append.mp hcount.distinct).1
  | shutdown => exact h.shutdown
  | closeAgain => exact h.closeAgain
  | drain _ hq | drained _ hq _ | drop _ hq _ | finishing _ hq | dropLast _ hq | stop hq
  | stopped hq | notify _ hq | notified _ hq =>
    obtain ⟨q', calls, -, rfl, -⟩ := queueStep_cases hq
    exact h
  | _ => exact h

theorem closedOnce_of_owned
    (hcount : Counted s.count s.log s.destroyed (holding cs) (closing cs))
    (h : Owned s.owner s.log s.destroyed (holding cs) (closing cs)) : ClosedOnce s := by
  refine ⟨fun id hid => ?_, h.own⟩
  obtain ⟨hclosed, hdestroyed⟩ := hcount.count_destroyed hid
  rw [h.closes, hclosed, hdestroyed]

theorem KeepsNumbers.perm (hperm : cs.Perm cs') (h : KeepsNumbers ⟨s, cs⟩ c x) :
    KeepsNumbers ⟨s, cs'⟩ c x := fun hc conn hmem =>
  h hc conn ((hperm.filterMap _).mem_iff.mpr hmem)

theorem lists_start (h : system.starts c = true) :
    holding (c :: cs) = holding cs ∧ closing (c :: cs) = closing cs := by
  cases c with
  | client | connect => exact ⟨rfl, rfl⟩
  | _ => exact nomatch h

def Counts (p : Pool Server Thread) : Prop :=
  Counted p.shared.count p.shared.log p.shared.destroyed (holding p.procs) (closing p.procs)

def Owns (p : Pool Server Thread) : Prop :=
  Owned p.shared.owner p.shared.log p.shared.destroyed (holding p.procs) (closing p.procs)

theorem Counts.start (h : Counts ⟨s, cs⟩) (hc : system.starts c = true) : Counts ⟨s, c :: cs⟩ := by
  obtain ⟨hholding, hclosing⟩ := lists_start hc
  rw [Counts, hholding, hclosing]
  exact h

theorem Owns.start (h : Owns ⟨s, cs⟩) (hc : system.starts c = true) : Owns ⟨s, c :: cs⟩ := by
  obtain ⟨hholding, hclosing⟩ := lists_start hc
  rw [Owns, hholding, hclosing]
  exact h

theorem Counts.perm (hperm : cs.Perm cs') (h : Counts ⟨s, cs⟩) : Counts ⟨s, cs'⟩ :=
  Counted.perm (hperm.filterMap _) (hperm.filterMap _) h

theorem Owns.perm (hperm : cs.Perm cs') (h : Owns ⟨s, cs⟩) : Owns ⟨s, cs'⟩ :=
  Owned.perm (hperm.filterMap _) (hperm.filterMap _) h

theorem counts_start : Counts start :=
  ⟨List.nodup_nil, fun _ hid => (nomatch hid), fun _ => rfl⟩

theorem owns_start : Owns start :=
  ⟨fun _ hmem => (nomatch hmem), fun _ hmem => (nomatch hmem), fun _ hmem => (nomatch hmem),
    fun _ => rfl⟩

variable {events : List (Event Thread Input)} {p : Pool Server Thread}

theorem counts_run (hrun : system.run start events = some p) : Counts p :=
  System.run_invariant (A := fun _ _ _ => True) Counts.perm (fun _ h => h) Counts.start
    (fun h _ hstep => counted_step h hstep) counts_start
    (along_of_forall (fun _ _ _ => trivial) events) hrun

theorem owns_run (hevents : system.Along KeepsNumbers start events)
    (hrun : system.run start events = some p) : Owns p := by
  have h : Counts p ∧ Owns p :=
    System.run_invariant (I := fun p => Counts p ∧ Owns p)
      (fun hperm h => ⟨h.1.perm hperm, h.2.perm hperm⟩) (fun hperm h => h.perm hperm)
      (fun h hc => ⟨h.1.start hc, h.2.start hc⟩)
      (fun h hc hstep => ⟨counted_step h.1 hstep, owned_step h.1 h.2 hc hstep⟩)
      ⟨counts_start, owns_start⟩ hevents hrun
  exact h.2

/-- For a destroyed connection `close` is called twice. As long as a number is not handed out
between the two calls, the second one hits nothing. -/
theorem closed_once (events : List (Event Thread Input)) (p : Pool Server Thread)
    (hrun : system.run start events = some p) :
    (∀ id ∈ p.shared.destroyed, p.shared.log.countP (Logged.isCloseOf id) = 2) ∧
      (system.Along KeepsNumbers start events → ClosedOnce p.shared) := by
  have hcount := counts_run hrun
  refine ⟨fun id hid => ?_, fun hevents => closedOnce_of_owned hcount (owns_run hevents hrun)⟩
  obtain ⟨hclosed, hdestroyed⟩ := hcount.count_destroyed hid
  rw [hcount.calls, hclosed, hdestroyed]

/-- The connection of a client from `connect` to its end. -/
def lived : List (Event Thread Input) :=
  [.start .connect, .turn 2 ⟨10, 0⟩, .turn 2 inside, .turn 2 inside, .turn 2 inside]

theorem closed_once_lived : ∃ p, system.run start lived = some p ∧ 0 ∈ p.shared.destroyed ∧
    p.shared.log.countP (Logged.isCloseOf 0) = 2 ∧ ClosedOnce p.shared := by
  have hquiet {p : Pool Server Thread} {c : Thread} (hc : c.holding?.isSome ∨ c.closing?.isSome) :
      KeepsNumbers p c inside := by
    rintro (rfl | rfl)
    · exact absurd hc (by decide)
    · exact absurd hc (by decide)
  have hevents : system.Along KeepsNumbers start lived := by
    refine along_start rfl <| along_turn rfl (fun _ conn hmem => ?_) rfl <|
      along_turn rfl (hquiet (.inl rfl)) rfl <| along_turn rfl (hquiet (.inr rfl)) rfl <|
      along_turn rfl (hquiet (.inr rfl)) rfl trivial
    exact nomatch hmem
  obtain ⟨htwice, honce⟩ := closed_once lived _ rfl
  exact ⟨_, rfl, .head _, htwice 0 (.head _), honce hevents⟩

/-- `accept` returns the number of the connection of a client that is closed and not destroyed. -/
def taken : List (Event Thread Input) :=
  [.start .connect, .turn 2 ⟨10, 0⟩, .turn 2 inside, .start .client, .turn 3 inside,
    .turn 0 ⟨10, 0⟩, .turn 2 inside, .turn 2 inside]

theorem not_closedOnce_taken : ¬ ∀ (events : List (Event Thread Input)) (p : Pool Server Thread),
    system.run start events = some p → ClosedOnce p.shared := by
  intro h
  obtain ⟨p, hp, hlog⟩ : ∃ p, system.run start taken = some p ∧
      p.shared.log = [⟨.close, 0, some 1⟩, ⟨.shutdown, 0, some 1⟩, ⟨.close, 0, some 0⟩] :=
    ⟨_, rfl, rfl⟩
  have hown := (h taken p hp).own ⟨.close, 0, some 1⟩ (hlog ▸ .head _)
  simp at hown

end Libuo.TcpServer
