import Libuo.ThreadPool

/-!
# The bounds of a pool of threads

The count that the manager remembers may be outdated, but only because threads have retired since,
so that it bounds the number of threads; and a thread retires only from a count above a target.
-/

namespace Libuo.ThreadPool
open Interleaving

variable {q q' : Shared} {l : Locals} {x : Bool} {i : ℕ} {c : Process} {cs cs' new : List Process}
  {p p' : Pool Shared Process} {es es' : List (Event Process Bool)}

/-- The target is within its bounds. -/
def InRange (q : Shared) : Prop :=
  countMin ≤ q.thrdCountTarget ∧ q.thrdCountTarget ≤ countMax

/-- The manager has loaded the count. -/
def Manager.knows : Manager → Bool
  | .start | .load => false
  | _ => true

def Process.isManager : Process → Bool
  | .manager _ _ => true
  | _ => false

/-- What holds of a process between its steps: the count that the manager remembers is not below
the number of threads, and a thread has read a target within the bounds. -/
def Sound (q : Shared) : Process → Prop
  | .manager pc l => (pc ≠ .start → InRange q) ∧ (pc.knows = true → q.thrdCount ≤ l.count) ∧
      (pc = .add → l.count < countMax)
  | .worker pc _ => InRange q ∧ ∀ count target, pc = .compare count target → countMin ≤ target
  | .setQuitting | .postUpdate => True

/-- There is one manager, and the count and the target are within their bounds when it has set the
target. -/
structure Inv (p : Pool Shared Process) : Prop where
  one : p.procs.countP Process.isManager ≤ 1
  target : (∃ l, .manager .start l ∈ p.procs) ∨ InRange p.shared
  count : p.shared.thrdCount ≤ countMax
  sound : ∀ c ∈ p.procs, Sound p.shared c

theorem inv_init : Inv init where
  one := Nat.le_refl _
  target := .inl ⟨_, List.mem_cons_self⟩
  count := Nat.zero_le _
  sound c hc := by
    rw [List.mem_singleton.mp hc]
    simp [Sound, Manager.knows]

theorem Inv.perm (hperm : cs.Perm cs') (h : Inv ⟨q, cs⟩) : Inv ⟨q, cs'⟩ where
  one := hperm.countP_eq _ ▸ h.one
  target := h.target.imp_left fun ⟨l, hl⟩ => ⟨l, hperm.mem_iff.mp hl⟩
  count := h.count
  sound c hc := h.sound c (hperm.mem_iff.mpr hc)

/-- When the manager takes a step, the other processes are not managers. -/
theorem Inv.others {pc : Manager} (h : Inv ⟨q, .manager pc l :: cs⟩) :
    ∀ c ∈ cs, c.isManager = false := by
  have hone := h.one
  rw [List.countP_cons, if_pos (by rfl)] at hone
  have hzero : cs.countP Process.isManager = 0 := by omega
  exact fun c hc => Bool.eq_false_of_not_eq_true (List.countP_eq_zero.mp hzero c hc)

theorem Sound.mono (h : Sound q c) (hrange : InRange q → InRange q')
    (hcount : q'.thrdCount ≤ q.thrdCount) : Sound q' c := by
  cases c with
  | manager pc l =>
    exact ⟨fun hpc => hrange (h.1 hpc), fun hpc => hcount.trans (h.2.1 hpc), h.2.2⟩
  | worker pc i => exact ⟨hrange h.1, h.2⟩
  | setQuitting => trivial
  | postUpdate => trivial

theorem Sound.of_not_isManager (h : Sound q c) (hc : c.isManager = false)
    (hrange : InRange q → InRange q') : Sound q' c := by
  cases c with
  | manager pc l => cases hc
  | worker pc i => exact ⟨hrange h.1, h.2⟩
  | setQuitting => trivial
  | postUpdate => trivial

theorem Manager.knows_of_searches {pc : Manager} (h : pc.searches = true) :
    pc ≠ .start ∧ pc.knows = true ∧ pc ≠ .add := by
  cases pc <;> simp [Manager.searches, Manager.knows] at h ⊢

/-- What a step of the manager leaves. -/
structure Kept (q q' : Shared) (new : List Process) : Prop where
  range : InRange q'
  count : q'.thrdCount ≤ countMax
  grows : q.thrdCount ≤ q'.thrdCount
  one : new.countP Process.isManager ≤ 1
  sound : ∀ c ∈ new, Sound q' c

/-- The manager goes on alone, where it knows the count and does not add to it. -/
theorem kept_alone {pc : Manager} (hrange : InRange q') (hcount : q'.thrdCount ≤ countMax)
    (hgrows : q.thrdCount ≤ q'.thrdCount) (hknows : pc.knows = true → q'.thrdCount ≤ l.count)
    (hadd : pc = .add → l.count < countMax) : Kept q q' [.manager pc l] where
  range := hrange
  count := hcount
  grows := hgrows
  one := Nat.le_refl _
  sound := List.forall_mem_singleton.mpr ⟨fun _ => hrange, hknows, hadd⟩

theorem InRange.lower (h : InRange q) (hmin : countMin < q.thrdCountTarget)
    (htarget : q'.thrdCountTarget = q.thrdCountTarget - 1) : InRange q' := by
  rw [InRange, htarget]
  exact ⟨Nat.le_sub_one_of_lt hmin, (Nat.sub_le _ _).trans h.2⟩

/-- A step of the manager keeps the bounds, whatever the decisions from outside. -/
theorem Managed.bounds {pc : Manager} (h : Managed q l x pc q' new)
    (hcount : q.thrdCount ≤ countMax) (hsound : Sound q (.manager pc l)) : Kept q q' new := by
  obtain ⟨hrange, hknows, hadd⟩ := hsound
  cases h with
  | start =>
    have hrange' : InRange { q with thrdCountTarget := countIni } :=
      ⟨(by decide : countMin ≤ countIni), (by decide : countIni ≤ countMax)⟩
    exact kept_alone hrange' hcount (Nat.le_refl _) nofun nofun
  | load =>
    exact kept_alone (hrange (by decide)) hcount (Nat.le_refl _) (fun _ => Nat.le_refl _) nofun
  | ends hquit => exact ⟨hrange (by decide), hcount, Nat.le_refl _, Nat.zero_le _, nofun⟩
  | adds hspawns =>
    have hmax : l.count < countMax := by
      rw [spawns, Bool.and_eq_true] at hspawns
      exact of_decide_eq_true hspawns.2
    exact kept_alone (hrange (by decide)) hcount (Nat.le_refl _) (fun _ => hknows rfl) fun _ => hmax
  | add =>
    have hlt := hadd rfl
    have hle := hknows rfl
    have hcount' : q.thrdCount + 1 ≤ countMax := by omega
    exact kept_alone (hrange (by decide)) hcount' (Nat.le_succ _) (fun _ => Nat.le_refl _) nofun
  | search hpc hpc' =>
    obtain ⟨hstart, hk, -⟩ := Manager.knows_of_searches hpc
    obtain ⟨-, -, hadd'⟩ := Manager.knows_of_searches hpc'
    exact kept_alone (hrange hstart) hcount (Nat.le_refl _) (fun _ => hknows hk)
      fun h => (hadd' h).elim
  | create hws =>
    have hrange := hrange (by decide)
    have hspawn : Sound q (.manager .spawn l) := ⟨fun _ => hrange, fun _ => hknows rfl, nofun⟩
    refine ⟨hrange, hcount, Nat.le_refl _, ?_, List.forall_mem_cons.mpr ⟨hspawn, ?_⟩⟩
    · rcases hws with rfl | rfl <;> exact Nat.le_refl _
    · rcases hws with rfl | rfl
      · exact nofun
      · exact List.forall_mem_singleton.mpr ⟨hrange, nofun⟩
  | raise hincrease hmax =>
    obtain ⟨hlow, -⟩ := hrange (by decide)
    exact kept_alone ⟨Nat.le_succ_of_le hlow, hmax⟩ hcount (Nat.le_refl _) (fun _ => hknows rfl)
      nofun
  | lower hincrease hmin =>
    exact kept_alone ((hrange (by decide)).lower hmin rfl) hcount (Nat.le_refl _)
      (fun _ => hknows rfl) nofun
  | shrinks hcounter hmin =>
    exact kept_alone ((hrange (by decide)).lower hmin rfl) hcount (Nat.le_refl _)
      (fun _ => hknows rfl) nofun
  | _ =>
    exact kept_alone (hrange (by decide)) hcount (Nat.le_refl _) (fun _ => hknows rfl) nofun

theorem Executed.bounds {pc : Worker} (h : Executed q pc i q' new)
    (hsound : Sound q (.worker pc i)) :
    InRange q' ∧ q'.thrdCount ≤ q.thrdCount ∧
      (countMin ≤ q.thrdCount → countMin ≤ q'.thrdCount) ∧
      new.countP Process.isManager = 0 ∧ ∀ c ∈ new, Sound q' c := by
  obtain ⟨hrange, hread⟩ := hsound
  have hrange' : InRange q' := by
    rw [InRange, h.thrdCountTarget]
    exact hrange
  refine ⟨hrange', ?_, fun hmin => ?_, ?_, fun c hc => ?_⟩
  · rcases h.thrdCount with hsame | ⟨target, -, -, hless⟩ <;> omega
  · rcases h.thrdCount with hsame | ⟨target, hpc, hlt, hless⟩
    · omega
    · have := hread _ target hpc
      omega
  · refine List.countP_eq_zero.mpr fun c hc => ?_
    obtain ⟨pc', rfl, -⟩ := h.procs c hc
    exact Bool.false_ne_true
  · obtain ⟨pc', rfl, htarget⟩ := h.procs c hc
    exact ⟨hrange', fun count target hpc => htarget count target hpc ▸ hrange.1⟩

theorem Inv.start (h : Inv ⟨q, cs⟩) (hc : system.starts c = true) : Inv ⟨q, c :: cs⟩ := by
  cases c with
  | setQuitting =>
    refine ⟨h.one, h.target.imp_left fun ⟨l, hl⟩ => ⟨l, List.mem_cons_of_mem _ hl⟩, h.count,
      fun c hc => ?_⟩
    rcases List.mem_cons.mp hc with rfl | hc
    · trivial
    · exact h.sound c hc
  | _ => cases hc

/-- A process that is neither the manager nor a thread of the pool takes a step. -/
theorem Inv.frame (h : Inv ⟨q, c :: cs⟩) (hc : c.isManager = false)
    (htarget : q'.thrdCountTarget = q.thrdCountTarget) (hcount : q'.thrdCount = q.thrdCount)
    (hnew : ∀ c' ∈ new, c'.isManager = false ∧ Sound q' c') : Inv ⟨q', new ++ cs⟩ := by
  have hrange : InRange q → InRange q' := fun hq => by rwa [InRange, htarget]
  refine ⟨?_, ?_, hcount ▸ h.count, fun c' hc' => ?_⟩
  · have hone := h.one
    have hzero : new.countP Process.isManager = 0 :=
      List.countP_eq_zero.mpr fun c' hc' => by simp [(hnew c' hc').1]
    rw [List.countP_cons] at hone
    rw [List.countP_append, hzero]
    omega
  · refine h.target.imp (fun ⟨l, hl⟩ => ⟨l, ?_⟩) hrange
    rcases List.mem_cons.mp hl with rfl | hl
    · cases hc
    · exact List.mem_append_right _ hl
  · rcases List.mem_append.mp hc' with hc' | hc'
    · exact (hnew c' hc').2
    · exact (h.sound c' (List.mem_cons_of_mem _ hc')).mono hrange (hcount ▸ Nat.le_refl _)

theorem Inv.turn (h : Inv ⟨q, c :: cs⟩) (hstep : step q c x = some (q', new)) :
    Inv ⟨q', new ++ cs⟩ ∧ (countMin ≤ q.thrdCount → countMin ≤ q'.thrdCount) := by
  have hsound := h.sound c List.mem_cons_self
  have hothers : ∀ c' ∈ cs, Sound q c' := fun c' hc' => h.sound c' (List.mem_cons_of_mem _ hc')
  cases c with
  | manager pc l =>
    have hkept := (manage_cases hstep).bounds h.count hsound
    refine ⟨⟨?_, .inr hkept.range, hkept.count, fun c' hc' => ?_⟩,
      fun hmin => hmin.trans hkept.grows⟩
    · have hzero : cs.countP Process.isManager = 0 :=
        List.countP_eq_zero.mpr fun c' hc' => by simp [h.others c' hc']
      rw [List.countP_append, hzero]
      exact hkept.one
    · rcases List.mem_append.mp hc' with hc' | hc'
      · exact hkept.sound c' hc'
      · exact (hothers c' hc').of_not_isManager (h.others c' hc') fun _ => hkept.range
  | worker pc i =>
    have hexec := execute_cases (Option.some.inj hstep)
    obtain ⟨hrange, hle, hmin, hnew, hsounds⟩ := hexec.bounds hsound
    refine ⟨⟨?_, .inr hrange, hle.trans h.count, fun c' hc' => ?_⟩, hmin⟩
    · have hone := h.one
      rw [List.countP_cons] at hone
      rw [List.countP_append, hnew]
      omega
    · rcases List.mem_append.mp hc' with hc' | hc'
      · exact hsounds c' hc'
      · exact (hothers c' hc').mono (fun _ => hrange) hle
  | setQuitting =>
    cases hstep
    exact ⟨h.frame rfl rfl rfl (by simp [Process.isManager, Sound]), id⟩
  | postUpdate =>
    cases hstep
    exact ⟨h.frame rfl rfl rfl (by simp), id⟩

theorem Inv.run (h : Inv p) (hr : system.run p es = some p') : Inv p' :=
  System.run_invariant (A := fun _ _ _ => True) Inv.perm (fun _ _ => trivial) Inv.start
    (fun h _ hstep => (h.turn hstep).1) h (System.along_of_forall (fun _ _ _ => trivial) es) hr

theorem Inv.run_countMin (h : Inv p) (hmin : countMin ≤ p.shared.thrdCount)
    (hr : system.run p es = some p') : countMin ≤ p'.shared.thrdCount :=
  (System.run_invariant (I := fun p => Inv p ∧ countMin ≤ p.shared.thrdCount)
    (A := fun _ _ _ => True) (fun hperm h => ⟨h.1.perm hperm, h.2⟩) (fun _ _ => trivial)
    (fun h hc => ⟨h.1.start hc, h.2⟩)
    (fun h _ hstep => ⟨(h.1.turn hstep).1, (h.1.turn hstep).2 h.2⟩) ⟨h, hmin⟩
    (System.along_of_forall (fun _ _ _ => trivial) es) hr).2

/-- Whatever the order of the steps and the decisions of the manager, the target is within its
bounds as soon as the manager has set it, there are never more threads than the maximum, and
never again fewer than the minimum. -/
theorem count_bounds (hr : system.run init es = some p) (hr' : system.run p es' = some p') :
    ((∀ l, .manager .start l ∉ p.procs) → InRange p.shared) ∧
      p.shared.thrdCount ≤ countMax ∧
      (countMin ≤ p.shared.thrdCount → countMin ≤ p'.shared.thrdCount) := by
  have h := inv_init.run hr
  refine ⟨fun hstarted => ?_, h.count, fun hmin => h.run_countMin hmin hr'⟩
  exact h.target.resolve_left fun ⟨l, hl⟩ => hstarted l hl

/-- The manager adds the first threads, and is about to leave its loop. -/
def added : List (Event Process Bool) := List.replicate 31 (.turn 0 false)

/-- After that one thread takes a callback and another finishes one, a sample of the throughput
lowers the target, and a thread retires. -/
def retired : List (Event Process Bool) :=
  [[.turn 0 false, .turn 1 false, .turn 1 true, .turn 1 false],
    .turn 2 false :: .turn 2 true :: List.replicate 7 (.turn 2 false),
    [.turn 0 true, .turn 0 false, .turn 0 false, .turn 0 true],
    List.replicate 3 (.turn 0 false), List.replicate 5 (.turn 3 false)].flatten

theorem run_added : (system.run init added).map (fun p => (p.shared.thrdCount, p.procs)) =
    some (4, [.manager .test ⟨3, 4, pauseCounterIni⟩, .worker .loop 3, .worker .loop 2,
      .worker .loop 1, .worker .loop 0]) := by
  decide +kernel

theorem run_retired : ((system.run init added).bind fun p => system.run p retired).map
    (·.shared.thrdCount) = some 3 := by
  decide +kernel

theorem count_bounds_retired : ∃ p p', system.run init added = some p ∧
    system.run p retired = some p' ∧ p.shared.thrdCount = 4 ∧ p'.shared.thrdCount = 3 ∧
    InRange p.shared ∧ p.shared.thrdCount ≤ countMax ∧ countMin ≤ p'.shared.thrdCount := by
  obtain ⟨p, hr, hp⟩ := Option.map_eq_some_iff.mp run_added
  obtain ⟨hcount, hprocs⟩ := Prod.mk.inj hp
  obtain ⟨p', hr', hcount'⟩ := Option.map_eq_some_iff.mp run_retired
  rw [hr, Option.bind_some] at hr'
  obtain ⟨hrange, hmax, hmin⟩ := count_bounds hr hr'
  refine ⟨p, p', hr, hr', hcount, hcount', hrange fun l => ?_, hmax, hmin ?_⟩
  · simp [hprocs]
  · rw [hcount]
    decide

end Libuo.ThreadPool
