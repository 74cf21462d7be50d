import Libuo.ThreadPoolBounds

/-!
# Whether the manager adds the threads that are missing

The manager compares the target with the count that it remembers from the last thread it has added.
A thread that has retired since is missing from the pool but not from that count, so that it is not
replaced when the target comes back.
-/

namespace Libuo.ThreadPool
open Interleaving

variable {q q' : Shared} {l : Locals} {x : Bool} {i : ℕ} {c : Process} {cs cs' new : List Process}
  {p p' : Pool Shared Process} {es : List (Event Process Bool)}

/-- A thread between reading the count and comparing it. -/
def Process.isBetween : Process → Bool
  | .worker (.target _) _ | .worker (.compare _ _) _ => true
  | _ => false

/-- When the manager is about to leave the loop that adds threads, and no thread is between reading
the count and comparing it, there are at least as many threads as the target. -/
def Supplied (p : Pool Shared Process) : Prop :=
  ∀ l, .manager .test l ∈ p.procs → spawns p.shared l = false →
    (∀ c ∈ p.procs, c.isBetween = false) → p.shared.thrdCountTarget ≤ p.shared.thrdCount

/-- The count that a process remembers and compares with the target. -/
def Process.count : Process → Option ℕ
  | .manager _ l => some l.count
  | _ => none

/-- What a run has to respect: the manager raises the target above the count that it remembers, or
to no more threads than there are; and a thread retires while there are more than the target, or
while the manager knows that there are not enough. -/
def Steady (p : Pool Shared Process) : Process → Bool → Prop
  | .manager .adjust l, x => p.shared.increases x = true →
    p.shared.thrdCountTarget < l.count → p.shared.thrdCountTarget < p.shared.thrdCount
  | .worker (.compare count target) _, _ => target < count → p.shared.thrdCount = count →
    ∀ c ∈ p.procs, ∀ n ∈ c.count, p.shared.thrdCountTarget ≤ n →
      p.shared.thrdCountTarget < p.shared.thrdCount
  | _, _ => True

instance decidableSteady : ∀ p c x, Decidable (Steady p c x) := by
  intro p c x
  unfold Steady
  split <;> infer_instance

/-- The manager has left the loop, and has not come back to it. -/
def Manager.isOut : Manager → Bool
  | .timedWait | .executing | .sample | .adjust | .pause | .wait | .clear => true
  | _ => false

/-- The manager is in the loop. -/
def Manager.isIn : Manager → Bool
  | .spawn | .test | .add | .find | .reset | .claim | .create => true
  | _ => false

/-- No thread that the manager counts is missing, and out of its loop it counts enough of them,
unless the program exits. -/
def Manager.Supplies (pc : Manager) (q : Shared) (count : ℕ) : Prop :=
  (q.isQuitting = true ∧ pc.isIn = false) ∨
    (pc.isOut = true → q.thrdCountTarget ≤ count) ∧
      (pc.knows = true → q.thrdCountTarget ≤ count → q.thrdCountTarget ≤ q.thrdCount)

theorem Manager.Supplies.of_enough {pc : Manager} {count : ℕ} (hout : pc.isOut = false)
    (h : pc.knows = true → q.thrdCountTarget ≤ count → q.thrdCountTarget ≤ q.thrdCount) :
    pc.Supplies q count :=
  .inr ⟨fun ho => absurd (ho.symm.trans hout) (by decide), h⟩

/-- The bounds, and the manager with what it counts. -/
structure SupplyInv (p : Pool Shared Process) : Prop where
  bounds : Inv p
  supplies : ∀ pc l, .manager pc l ∈ p.procs → pc.Supplies p.shared l.count

theorem supplyInv_init : SupplyInv init where
  bounds := inv_init
  supplies pc l hl := by
    obtain ⟨rfl, rfl⟩ := Process.manager.inj (List.mem_singleton.mp hl)
    exact .of_enough rfl fun hknows => by cases hknows

theorem SupplyInv.perm (hperm : cs.Perm cs') (h : SupplyInv ⟨q, cs⟩) : SupplyInv ⟨q, cs'⟩ where
  bounds := h.bounds.perm hperm
  supplies pc l hl := h.supplies pc l (hperm.mem_iff.mpr hl)

theorem Steady.perm (hperm : cs.Perm cs') (h : Steady ⟨q, cs⟩ c x) : Steady ⟨q, cs'⟩ c x := by
  unfold Steady at h ⊢
  split
  · exact h
  · exact fun hlt hcount c hc => h hlt hcount c (hperm.mem_iff.mpr hc)
  · trivial

theorem Manager.isIn_of_searches {pc : Manager} (h : pc.searches = true) :
    pc.isIn = true ∧ pc.isOut = false := by
  cases pc <;> simp [Manager.searches, Manager.isIn, Manager.isOut] at h ⊢

theorem Manager.Supplies.enough {pc : Manager} {count : ℕ} (h : pc.Supplies q count)
    (hin : pc.isIn = true ∨ q.isQuitting = false) (hknows : pc.knows = true) :
    q.thrdCountTarget ≤ count → q.thrdCountTarget ≤ q.thrdCount := by
  rcases h with ⟨hquit, hnot⟩ | ⟨-, henough⟩
  · rcases hin with hin | hnoquit
    · exact absurd (hin.symm.trans hnot) (by decide)
    · exact absurd (hquit.symm.trans hnoquit) (by decide)
  · exact henough hknows

theorem Manager.Supplies.goesOn {pc pc' : Manager} {count : ℕ} (h : pc.Supplies q count)
    (hout : pc.isOut = true) (hnotin : pc'.isIn = false) (hquit : q'.isQuitting = q.isQuitting)
    (htarget : q'.thrdCountTarget ≤ q.thrdCountTarget) (hcount : q'.thrdCount = q.thrdCount) :
    pc'.Supplies q' count := by
  have hknows : pc.knows = true := by cases pc <;> simp [Manager.isOut, Manager.knows] at hout ⊢
  rcases h with ⟨hq, -⟩ | ⟨hle, henough⟩
  · exact .inl ⟨hquit.trans hq, hnotin⟩
  · have hle := hle hout
    have hle' := henough hknows hle
    refine .inr ⟨fun _ => htarget.trans hle, fun _ _ => ?_⟩
    rw [hcount]
    exact htarget.trans hle'

theorem supplies_alone {pc : Manager} (h : pc.Supplies q l.count) :
    ∀ c ∈ [Process.manager pc l], ∀ pc' l', c = .manager pc' l' → pc'.Supplies q l'.count := by
  refine List.forall_mem_singleton.mpr fun pc' l' he => ?_
  cases he
  exact h

theorem Managed.supplies {pc : Manager} (h : Managed q l x pc q' new)
    (hsound : Sound q (.manager pc l)) (hsteady : Steady ⟨q, cs⟩ (.manager pc l) x)
    (hs : pc.Supplies q l.count) :
    ∀ c ∈ new, ∀ pc' l', c = .manager pc' l' → pc'.Supplies q' l'.count := by
  cases h with
  | start => exact supplies_alone (.of_enough rfl fun hknows => by cases hknows)
  | load => exact supplies_alone (.of_enough rfl fun _ => id)
  | ends hquit => simp
  | enters hquit => exact supplies_alone (.of_enough rfl fun _ => hs.enough (.inr hquit) rfl)
  | breaks hquit => exact supplies_alone (.inl ⟨hquit, rfl⟩)
  | tests => exact supplies_alone (.of_enough rfl fun _ => hs.enough (.inl rfl) rfl)
  | adds hspawns => exact supplies_alone (.of_enough rfl fun _ => hs.enough (.inl rfl) rfl)
  | leaves hspawns =>
    refine supplies_alone ?_
    refine .inr ⟨fun _ => ?_, fun _ => hs.enough (.inl rfl) rfl⟩
    have hmax := (hsound.1 (by decide)).2
    rw [spawns, Bool.and_eq_false_iff, decide_eq_false_iff_not, decide_eq_false_iff_not] at hspawns
    omega
  | add => exact supplies_alone (.of_enough rfl fun _ => id)
  | search hpc hpc' =>
    refine supplies_alone ?_
    refine .of_enough (Manager.isIn_of_searches hpc').2 fun _ => ?_
    exact hs.enough (.inl (Manager.isIn_of_searches hpc).1) (Manager.knows_of_searches hpc).2.1
  | create hws =>
    refine List.forall_mem_cons.mpr ⟨fun pc' l' he => ?_, ?_⟩
    · cases he
      exact .of_enough rfl fun _ => hs.enough (.inl rfl) rfl
    · rcases hws with rfl | rfl
      · simp
      · simp
  | raise hincrease hmax => exact supplies_alone (.of_enough rfl fun _ => hsteady hincrease)
  | lower hincrease hmin => exact supplies_alone (hs.goesOn rfl rfl rfl (Nat.sub_le _ _) rfl)
  | shrinks hcounter hmin => exact supplies_alone (hs.goesOn rfl rfl rfl (Nat.sub_le _ _) rfl)
  | _ => exact supplies_alone (hs.goesOn rfl rfl rfl (Nat.le_refl _) rfl)

theorem Manager.Supplies.frame {pc : Manager} {count : ℕ} (h : pc.Supplies q count)
    (hquit : q.isQuitting = true → q'.isQuitting = true)
    (htarget : q'.thrdCountTarget = q.thrdCountTarget)
    (hcount : q.thrdCountTarget ≤ count → q.thrdCountTarget ≤ q.thrdCount →
      q.thrdCountTarget ≤ q'.thrdCount) : pc.Supplies q' count := by
  rcases h with ⟨hq, hin⟩ | ⟨hout, henough⟩
  · exact .inl ⟨hquit hq, hin⟩
  · refine .inr ⟨fun h => htarget ▸ hout h, fun hknows hle => ?_⟩
    rw [htarget] at hle ⊢
    exact hcount hle (henough hknows hle)

theorem SupplyInv.start (h : SupplyInv ⟨q, cs⟩) (hc : system.starts c = true) :
    SupplyInv ⟨q, c :: cs⟩ := by
  refine ⟨h.bounds.start hc, fun pc l hl => ?_⟩
  rcases List.mem_cons.mp hl with rfl | hl
  · cases hc
  · exact h.supplies pc l hl

theorem SupplyInv.turn (h : SupplyInv ⟨q, c :: cs⟩) (hsteady : Steady ⟨q, c :: cs⟩ c x)
    (hstep : step q c x = some (q', new)) : SupplyInv ⟨q', new ++ cs⟩ := by
  refine ⟨(h.bounds.turn hstep).1, fun pc' l' hl' => ?_⟩
  change pc'.Supplies q' l'.count
  have hothers (hl' : .manager pc' l' ∈ cs) : pc'.Supplies q l'.count :=
    h.supplies pc' l' (List.mem_cons_of_mem _ hl')
  cases c with
  | manager pc l =>
    rcases List.mem_append.mp hl' with hnew | hold
    · exact (manage_cases hstep).supplies (h.bounds.sound _ List.mem_cons_self) hsteady
        (h.supplies pc l List.mem_cons_self) _ hnew pc' l' rfl
    · cases h.bounds.others _ hold
  | worker pc i =>
    have hexec := execute_cases (Option.some.inj hstep)
    rcases List.mem_append.mp hl' with hnew | hold
    · obtain ⟨pc'', he, -⟩ := hexec.procs _ hnew
      cases he
    · refine (hothers hold).frame (fun hq => hexec.isQuitting.trans hq) hexec.thrdCountTarget
        fun hle hle' => ?_
      rcases hexec.thrdCount with hsame | ⟨target, rfl, hlt, hless⟩
      · exact hsame ▸ hle'
      · have hmore : q.thrdCountTarget < q.thrdCount :=
          hsteady hlt rfl _ (List.mem_cons_of_mem _ hold) l'.count rfl hle
        omega
  | setQuitting =>
    cases hstep
    rcases List.mem_append.mp hl' with hnew | hold
    · cases List.mem_singleton.mp hnew
    · exact (hothers hold).frame (fun _ => rfl) rfl fun _ hle => hle
  | postUpdate =>
    cases hstep
    exact (hothers hl').frame id rfl fun _ hle => hle

/-- The manager always leaves its loop with enough threads if it raises the target only above what
it counts or to what there is, and threads retire only while there are more than the target. -/
theorem supplied_of_steady (hr : system.run init es = some p) (hes : system.Along Steady init es) :
    Supplied p := by
  have h : SupplyInv p := System.run_invariant SupplyInv.perm Steady.perm SupplyInv.start
    SupplyInv.turn supplyInv_init hes hr
  intro l hl hspawns _
  have hmax := ((h.bounds.sound _ hl).1 (by decide)).2
  rw [spawns, Bool.and_eq_false_iff, decide_eq_false_iff_not, decide_eq_false_iff_not] at hspawns
  exact (h.supplies .test l hl).enough (.inl rfl) rfl (by omega)

/-- When the manager raises the target otherwise, it comes back to its loop and leaves it with too
few threads, unless another process takes a step before. -/
theorem not_supplied_of_raise (hc : p.procs[i]? = some (.manager .adjust l))
    (hquit : p.shared.isQuitting = false) (hincrease : p.shared.increases x = true)
    (hmax : p.shared.thrdCountTarget < countMax) (hbetween : ∀ c ∈ p.procs, c.isBetween = false)
    (hcounts : p.shared.thrdCountTarget < l.count)
    (hfew : p.shared.thrdCount ≤ p.shared.thrdCountTarget) :
    ∃ p', system.run p [.turn i x, .turn i false, .turn i false] = some p' ∧ ¬ Supplied p' := by
  obtain ⟨q, hq⟩ : ∃ q, q = p.shared.adjust x := ⟨_, rfl⟩
  have htarget : q.thrdCountTarget = p.shared.thrdCountTarget + 1 := by
    rw [hq]
    simp only [Shared.adjust, if_pos hincrease, if_pos hmax]
  have hcount : q.thrdCount = p.shared.thrdCount := by rw [hq]; rfl
  have hquit' : q.isQuitting = false := by rw [hq]; exact hquit
  have hset (c : Process) (procs : List Process) (h : procs[i]? = some (.manager .adjust l)) :
      (procs.set i c)[i]? = some c := by
    rw [List.getElem?_set_self (List.getElem?_eq_some_iff.mp h).1]
  have hloop : system.step p.shared (.manager .adjust l) x = some (q, [.manager .loop l]) := by
    rw [hq]
    rfl
  have hspawn : system.step q (.manager .loop l) false = some (q, [.manager .spawn l]) := by
    change manage q l false .loop = _
    simp only [manage, hquit', Bool.false_eq_true, if_false]
  have htest : system.step q (.manager .spawn l) false = some (q, [.manager .test l]) := by
    change manage q l false .spawn = _
    simp only [manage, hquit', Bool.false_eq_true, if_false]
  refine ⟨⟨q, p.procs.set i (.manager .test l)⟩, ?_, fun h => ?_⟩
  · have hfirst := hset (.manager .loop l) _ hc
    have hsecond := hset (.manager .spawn l) _ hc
    simp only [System.run, System.next_one hc hloop, Option.bind_some,
      System.next_one (p := ⟨q, _⟩) hfirst hspawn, System.next_one (p := ⟨q, _⟩) hsecond htest,
      List.set_set]
  · have hspawns : spawns q l = false := by
      rw [spawns, htarget, decide_eq_false (by omega), Bool.false_and]
    have hmem : .manager .test l ∈ p.procs.set i (.manager .test l) :=
      List.mem_of_getElem? (hset _ _ hc)
    have hle := h l hmem hspawns fun c hc' => by
      rcases List.mem_or_eq_of_mem_set hc' with hold | rfl
      · exact hbetween c hold
      · rfl
    change q.thrdCountTarget ≤ q.thrdCount at hle
    omega

theorem supplied_of_steady_added : ∃ p, system.run init added = some p ∧ Supplied p := by
  obtain ⟨p, hr⟩ : ∃ p, system.run init added = some p := ⟨_, rfl⟩
  exact ⟨p, hr, supplied_of_steady hr (by decide +kernel)⟩

/-- When a thread has retired, the next sample of the throughput raises the target again. -/
def regrown : List (Event Process Bool) :=
  added ++ retired ++ .turn 0 true :: List.replicate 5 (.turn 0 false)

theorem run_regrown : (system.run init regrown).map
    (fun p => (p.shared.thrdCount, p.shared.thrdCountTarget, p.procs)) =
      some (3, 4, [.manager .test ⟨3, 4, pauseCounterIni⟩, .worker .after 3, .worker .loop 2,
        .worker .exited 1, .worker .loop 0]) := by
  decide +kernel

/-- The manager leaves its loop with three threads for a target of four. -/
theorem not_supplied_regrown : ∃ p, system.run init regrown = some p ∧ ¬ Supplied p := by
  obtain ⟨p, hr, hp⟩ := Option.map_eq_some_iff.mp run_regrown
  obtain ⟨hcount, hp⟩ := Prod.mk.inj hp
  obtain ⟨htarget, hprocs⟩ := Prod.mk.inj hp
  refine ⟨p, hr, fun h => ?_⟩
  have hspawns : spawns p.shared ⟨3, 4, pauseCounterIni⟩ = false := by
    rw [spawns, htarget]
    rfl
  have hle := h _ (hprocs ▸ List.mem_cons_self) hspawns (by simp [hprocs, Process.isBetween])
  omega

end Libuo.ThreadPool
