import Libuo.HttpAnswers
import Mathlib.Data.List.Infix

/-!
# Sessions

A server and a client that sends one request after the other on a connection, each of them behind
the response to the one before, in chunks of any size. A request is parsed as if it were the only
one, whatever has been on the connection before it.
-/

namespace Libuo.HttpSession
open HttpMsg HttpConns HttpAnswers HttpRoundTrip HttpDelivery ByteStreams

/-- A request, the message that it is parsed as, and the response to it. -/
structure Visit where
  request : List UInt8
  msg : Msg
  response : List UInt8

/-- What a client has sent at most when it has got `w`. -/
def sent : List Visit → List UInt8 → List UInt8
  | [], _ => []
  | v :: vs, w =>
    v.request ++ if v.response <+: w then sent vs (w.drop v.response.length) else []

/-- The server answers all requests, and none but the last asks for the close. -/
structure Session (x : Service) (vs : List Visit) : Prop where
  answers : ∀ v ∈ vs, Answers x v.request v.response v.msg
  kept : ∀ v ∈ vs.dropLast, ¬ Closes v.msg

/-- A server that has read `r` and written `w` has had the messages of the first requests, which are
those that are completely in `r`, and no others. What it has written are responses to these. It goes
on by itself, or it has written them all and takes whatever the client sends. -/
def Serves (x : Service) (vs : List Visit) (r w : List UInt8) (e : Endpoint) : Prop :=
  ∃ before behind, vs = before ++ behind ∧ e.received = before.map Visit.msg ∧
    before.flatMap Visit.request <+: r ∧
    (∀ v ∈ behind.head?, ¬ before.flatMap Visit.request ++ v.request <+: r) ∧
    w <+: before.flatMap Visit.response ∧
    (Moves (server x) e ∨
      w = before.flatMap Visit.response ∧ Waits (server x) (sent vs w) r e)

variable {x : Service} {vs before behind : List Visit} {v : Visit} {r w c : List UInt8}
  {e e' : Endpoint} {k n : ℕ} {log : List Msg}

theorem sent_append (before behind : List Visit) (w : List UInt8) :
    sent (before ++ behind) (before.flatMap Visit.response ++ w) =
      before.flatMap Visit.request ++ sent behind w := by
  induction before with
  | nil => rfl
  | cons v before ih =>
    rw [List.cons_append, sent, List.flatMap_cons, List.flatMap_cons, List.append_assoc,
      if_pos (List.prefix_append _ _), List.drop_left, ih, List.append_assoc]

/-- No more than a request is sent before the response to it has come. -/
theorem sent_part (hw : ¬ v.response <+: w) : sent (v :: behind) w = v.request := by
  rw [sent, if_neg hw, List.append_nil]

/-- Between two requests, or in one of them, with at most `k` steps of the server left. -/
inductive SessionAt (x : Service) (vs : List Visit) :
    ℕ → List UInt8 → List UInt8 → Endpoint → Prop
  | between {before behind : List Visit} {e : Endpoint} (hvs : vs = before ++ behind)
    (h : Ready e (before.map Visit.msg)) :
    SessionAt x vs (2 * behind.length) (before.flatMap Visit.request)
      (before.flatMap Visit.response) e
  | during {before behind : List Visit} {v : Visit} {k : ℕ} {r w : List UInt8} {e : Endpoint}
    (hvs : vs = before ++ v :: behind)
    (h : ServerAt v.request v.response x v.msg (before.map Visit.msg) k r w e) :
    SessionAt x vs (k + 2 * behind.length) (before.flatMap Visit.request ++ r)
      (before.flatMap Visit.response ++ w) e

theorem mem_of_append (hvs : vs = before ++ v :: behind) : v ∈ vs := by
  rw [hvs]
  exact List.mem_append_right _ (.head _)

/-- After the response to a request that does not ask for the close, the connection is as it was
when it was opened. -/
theorem ready_of_written (hv : Answers x v.request v.response v.msg) (hunsent : e.unsent = none)
    (h : ServerAt v.request v.response x v.msg log k r v.response e) :
    k = 0 ∧ r = v.request ∧ (¬ Closes v.msg → Ready e (log ++ [v.msg])) := by
  have hne := hv.response_ne_nil
  generalize hw : v.response = w at h
  cases h with
  | receiving | answering => exact absurd hw hne
  | writing hwf hstate hsending hbytes hreq hlog =>
    rw [hunsent] at hsending
    cases hsending
  | done hwf hstate hunsent hempty hmsg hlog =>
    refine ⟨rfl, rfl, fun hkept => ?_⟩
    rw [if_neg hkept] at hstate
    exact ⟨hwf, hstate, hunsent, hempty, hmsg, hlog⟩

theorem kept_of_next (hx : Session x vs) {v' : Visit} (hvs : vs = before ++ v :: v' :: behind) :
    ¬ Closes v.msg := by
  apply hx.kept
  rw [hvs, List.dropLast_append_of_ne_nil (List.cons_ne_nil _ _)]
  exact List.mem_append_right _ (.head _)

theorem unsent_of_read (h : (server x).read e c = some e') : e.unsent = none := by
  change Server.read x.junk x.reqHandlers e c = some e' at h
  by_contra hsending
  rw [Server.read] at h
  simp [hsending, guard] at h

theorem ready_act (h : Ready e log) : (server x).act e = none := by
  change Server.act x.junk x.respond x.fileServer e = none
  rw [Server.act, h.unsent]
  simp [h.state, guard]

theorem session_act (hx : Session x vs) (h : SessionAt x vs k r w e)
    (hact : (server x).act e = some e') : ∃ k', k' < k ∧ SessionAt x vs k' r w e' := by
  cases h with
  | between hvs h =>
    rw [ready_act h] at hact
    cases hact
  | during hvs h =>
    obtain ⟨k', hk, h'⟩ := server_act (hx.answers _ (mem_of_append hvs)) h hact
    exact ⟨k' + 2 * _, Nat.add_lt_add_right hk _, .during hvs h'⟩

theorem session_write (h : SessionAt x vs k r w e) (hwrite : e.write n = some (c, e')) :
    c ≠ [] ∧ SessionAt x vs k r (w ++ c) e' := by
  cases h with
  | between hvs h =>
    rw [write_none h.unsent] at hwrite
    cases hwrite
  | during hvs h =>
    obtain ⟨hc, h'⟩ := server_write h hwrite
    rw [List.append_assoc]
    exact ⟨hc, .during hvs h'⟩

/-- The first bytes of a request that come on a connection without any. -/
theorem ready_read (hx : Session x vs) (hvs : vs = before ++ behind)
    (h : Ready e (before.map Visit.msg)) (hc : c ≠ [])
    (hp : before.flatMap Visit.request ++ c <+: sent vs (before.flatMap Visit.response)) :
    ∃ e', (server x).read e c = some e' ∧
      SessionAt x vs (2 * behind.length) (before.flatMap Visit.request ++ c)
        (before.flatMap Visit.response) e' := by
  have hsent := sent_append before behind []
  rw [List.append_nil] at hsent
  rw [hvs, hsent, List.prefix_append_right_inj] at hp
  cases behind with
  | nil => exact absurd (List.prefix_nil.mp hp) hc
  | cons v behind =>
    have hv := hx.answers v (mem_of_append hvs)
    rw [sent_part (mt List.prefix_nil.mp hv.response_ne_nil)] at hp
    obtain ⟨e', hread, h'⟩ := server_receive hv h.wf h.state h.unsent h.empty h.holds .empty
      h.received hc hp
    refine ⟨e', hread, ?_⟩
    have hduring := SessionAt.during hvs h'
    rw [List.append_nil] at hduring
    rwa [List.length_cons, Nat.mul_add, Nat.add_comm]

theorem session_read (hx : Session x vs) (h : SessionAt x vs k r w e) (hc : c ≠ [])
    (hp : r ++ c <+: sent vs w) (hread : (server x).read e c = some e') :
    SessionAt x vs k (r ++ c) w e' := by
  cases h with
  | between hvs h =>
    obtain ⟨e₁, hread₁, h₁⟩ := ready_read hx hvs h hc hp
    obtain rfl := Option.some.inj (hread₁.symm.trans hread)
    exact h₁
  | @during before behind v k r w _ hvs h =>
    have hv := hx.answers v (mem_of_append hvs)
    by_cases hw : v.response <+: w
    · obtain rfl : w = v.response :=
        (serverAt_written h).eq_of_length_le hw.length_le
      have hunsent := unsent_of_read hread
      obtain ⟨rfl, rfl, hready⟩ := ready_of_written hv hunsent h
      have hvs' : vs = (before ++ [v]) ++ behind := by rw [hvs, List.append_assoc]; rfl
      have hrequests : before.flatMap Visit.request ++ v.request =
          (before ++ [v]).flatMap Visit.request := by simp
      have hresponses : before.flatMap Visit.response ++ v.response =
          (before ++ [v]).flatMap Visit.response := by simp
      rw [hrequests, hresponses] at hp ⊢
      have hready' : behind ≠ [] → Ready e ((before ++ [v]).map Visit.msg) := fun hne => by
        obtain ⟨v', behind, rfl⟩ := List.exists_cons_of_ne_nil hne
        rw [List.map_append]
        exact hready (kept_of_next hx hvs)
      by_cases hbehind : behind = []
      · have hsent := sent_append (before ++ [v]) [] []
        rw [List.append_nil, List.append_nil] at hsent
        rw [hvs', hbehind, List.append_nil, hsent, List.prefix_append_right_inj] at hp
        exact absurd (List.prefix_nil.mp hp) hc
      · obtain ⟨e₁, hread₁, h₁⟩ := ready_read hx hvs' (hready' hbehind) hc hp
        obtain rfl := Option.some.inj (hread₁.symm.trans hread)
        rw [Nat.zero_add]
        exact h₁
    · rw [hvs, sent_append, sent_part hw, List.append_assoc, List.prefix_append_right_inj] at hp
      rw [List.append_assoc]
      exact .during hvs (server_read hv h hc hp hread)

theorem follows_session (hx : Session x vs) :
    Follows (server x) (· < ·) (sent vs) (fun _ => vs.flatMap Visit.response) (SessionAt x vs) where
  written h := by
    cases h with
    | between hvs h =>
      rw [hvs, List.flatMap_append]
      exact List.prefix_append _ _
    | during hvs h =>
      rw [hvs, List.flatMap_append, List.flatMap_cons, List.prefix_append_right_inj]
      exact (serverAt_written h).trans (List.prefix_append _ _)
  act h hact := session_act hx h hact
  write h hwrite := session_write h hwrite
  read h hc hp hread := session_read hx h hc hp hread

theorem request_ne_nil (hx : Session x vs) (hv : v ∈ vs) : v.request ≠ [] :=
  HttpReceive.complete_ne_nil (hx.answers v hv).sendable.complete

theorem no_other (hx : Session x vs) (hvs : vs = before ++ behind) :
    ∀ v ∈ behind.head?, ¬ before.flatMap Visit.request ++ v.request <+:
      before.flatMap Visit.request := by
  intro v hv
  apply not_part
  apply request_ne_nil hx
  rw [hvs]
  exact List.mem_append_right _ (List.mem_of_mem_head? hv)

theorem waits_of_ready (hx : Session x vs) (hvs : vs = before ++ behind)
    (h : Ready e (before.map Visit.msg)) :
    Waits (server x) (sent vs (before.flatMap Visit.response)) (before.flatMap Visit.request)
      e := by
  intro c hc hp
  obtain ⟨e', hread, -⟩ := ready_read hx hvs h hc hp
  exact ⟨e', hread⟩

/-- A server that waits for the rest of one request waits for it behind others. -/
theorem waits_append {p q : List UInt8} (h : Waits (server x) q r e) :
    Waits (server x) (p ++ q) (p ++ r) e := by
  intro c hc hp
  rw [List.append_assoc, List.prefix_append_right_inj] at hp
  exact h c hc hp

/-- A server that has a request completely goes on until the response is written, and then waits
for the next one. -/
theorem goes_on_of_whole (hx : Session x vs) (hvs : vs = before ++ v :: behind)
    (h : ServerAt v.request v.response x v.msg (before.map Visit.msg) k v.request w e) :
    Moves (server x) e ∨ w = v.response ∧
      Waits (server x) (sent vs ((before ++ [v]).flatMap Visit.response))
        ((before ++ [v]).flatMap Visit.request) e := by
  have hv := hx.answers v (mem_of_append hvs)
  have hvs' : vs = (before ++ [v]) ++ behind := by
    rw [hvs, List.append_assoc]
    rfl
  by_cases hw : w = v.response
  · subst hw
    cases hunsent : e.unsent with
    | some rest => exact .inl (moves_of_unsent hunsent)
    | none =>
      obtain ⟨-, -, hready⟩ := ready_of_written hv hunsent h
      refine .inr ⟨rfl, ?_⟩
      cases behind with
      | nil =>
        intro c hc hp
        have hsent := sent_append (before ++ [v]) [] []
        rw [List.append_nil, List.append_nil] at hsent
        rw [hvs', List.append_nil, hsent, List.prefix_append_right_inj] at hp
        exact absurd (List.prefix_nil.mp hp) hc
      | cons v' behind =>
        apply waits_of_ready hx hvs'
        rw [List.map_append]
        exact hready (kept_of_next hx hvs)
  · exact .inl (server_moves hv h hw)

theorem serves_of_sessionAt (hx : Session x vs) (h : SessionAt x vs k r w e) :
    Serves x vs r w e := by
  cases h with
  | @between before behind _ hvs h =>
    exact ⟨before, behind, hvs, h.received, List.prefix_refl _, no_other hx hvs,
      List.prefix_refl _, .inr ⟨rfl, waits_of_ready hx hvs h⟩⟩
  | @during before behind v k r w _ hvs h =>
    have hv := hx.answers v (mem_of_append hvs)
    by_cases hr : r = v.request
    · subst hr
      have hvs' : vs = (before ++ [v]) ++ behind := by
        rw [hvs, List.append_assoc]
        rfl
      have hrequests : before.flatMap Visit.request ++ v.request =
          (before ++ [v]).flatMap Visit.request := by simp
      have hresponses : before.flatMap Visit.response ++ v.response =
          (before ++ [v]).flatMap Visit.response := by simp
      refine ⟨before ++ [v], behind, hvs', ?_, ?_, ?_, ?_, ?_⟩
      · rw [server_whole h, List.map_append]
        rfl
      · rw [hrequests]
      · rw [hrequests]
        exact no_other hx hvs'
      · rw [← hresponses, List.prefix_append_right_inj]
        exact serverAt_written h
      · rcases goes_on_of_whole hx hvs h with hmoves | ⟨rfl, hwaits⟩
        · exact .inl hmoves
        · rw [hresponses, hrequests]
          exact .inr ⟨rfl, hwaits⟩
    · obtain ⟨rfl, hp, hlog⟩ := server_part h hr
      refine ⟨before, v :: behind, hvs, hlog, List.prefix_append _ _, ?_, ?_, .inr ⟨?_, ?_⟩⟩
      · rintro v' ⟨rfl⟩ hmore
        rw [List.prefix_append_right_inj] at hmore
        exact hr (hp.eq_of_length_le hmore.length_le)
      · rw [List.append_nil]
      · rw [List.append_nil]
      · rw [hvs, sent_append, sent_part (mt List.prefix_nil.mp hv.response_ne_nil)]
        exact waits_append (server_waits hv h)

/-- Whatever the server reads, writes and does, in any order, as long as no request is sent before
the response to the one before it has come: all requests are served. -/
theorem serves (hx : Session x vs) (h : Reaches (server x) (sent vs) (Server.opened x.junk) r w e) :
    Serves x vs r w e := by
  have hopened : SessionAt x vs (2 * vs.length) [] [] (Server.opened x.junk) :=
    @SessionAt.between x vs [] vs _ rfl (ready_opened x.junk)
  obtain ⟨k, hk⟩ := h.follows (follows_session hx) hopened
  exact serves_of_sessionAt hx hk

def greetings : Service where
  junk _ := 0
  reqHandlers := 0
  respond _ := compose answer (contentFirst answer)
  fileServer := none

/-- Two requests on a connection. -/
def twice (request : Msg) : List Visit :=
  List.replicate 2 ⟨bytes accepted (contentFirst accepted), request,
    bytes answer (contentFirst answer)⟩

theorem exists_session : ∃ request, Session greetings (twice request) := by
  obtain ⟨request, hanswers, hrequest⟩ := @answers_of_composed greetings _ _ _ _
    deliverable_accepted.travels deliverable_answer.travels rfl fun _ _ => rfl
  have hkept : ¬ Closes request := by
    rw [Closes, hrequest.headers]
    decide
  refine ⟨request, fun v hv => ?_, fun v hv => ?_⟩
  · rw [List.eq_of_mem_replicate hv]
    exact hanswers
  · rw [List.eq_of_mem_replicate (List.dropLast_subset _ hv)]
    exact hkept

/-- The first request is read in two chunks, the response to it is written in two pieces, and the
second request is read. -/
theorem run_twice : ((do
    let q := bytes accepted (contentFirst accepted)
    let e ← (server greetings).read (Server.opened greetings.junk) (q.take 30)
    let e ← (server greetings).read e (q.drop 30)
    let e ← (server greetings).act e
    let (w, e) ← (server greetings).write e 20
    let (w', e) ← (server greetings).write e 46
    let e ← (server greetings).act e
    let e ← (server greetings).read e q
    some (w ++ w', e.received.length)) : Option (List UInt8 × ℕ)) =
      some (bytes answer (contentFirst answer), 2) := by
  decide +kernel

theorem serves_twice : ∃ request e,
    Reaches (server greetings) (sent (twice request)) (Server.opened greetings.junk)
        (bytes accepted (contentFirst accepted) ++ bytes accepted (contentFirst accepted))
        (bytes answer (contentFirst answer)) e ∧ e.received.length = 2 ∧
      Serves greetings (twice request)
        (bytes accepted (contentFirst accepted) ++ bytes accepted (contentFirst accepted))
        (bytes answer (contentFirst answer)) e := by
  obtain ⟨request, hx⟩ := exists_session
  have hrun := run_twice
  simp only [Option.bind_eq_bind, Option.bind_eq_some_iff] at hrun
  obtain ⟨e₁, h₁, e₂, h₂, e₃, h₃, ⟨w, e₄⟩, h₄, ⟨w', e₅⟩, h₅, e₆, h₆, e₇, h₇, h⟩ := hrun
  obtain ⟨hw, hlen⟩ := Prod.mk.inj (Option.some.inj h)
  generalize hq : bytes accepted (contentFirst accepted) = q at *
  generalize ha : bytes answer (contentFirst answer) = a at *
  have hfirst : q <+: sent (twice request) [] := hq ▸ List.prefix_append _ _
  have hread₁ : Reaches (server greetings) (sent (twice request)) (Server.opened greetings.junk)
      ([] ++ q.take 30) [] e₁ :=
    .read .start (by rw [← hq]; decide) ((List.take_prefix _ _).trans hfirst) h₁
  have hread₂ : Reaches (server greetings) (sent (twice request)) (Server.opened greetings.junk)
      q [] e₂ := by
    have := Reaches.read hread₁ (by rw [← hq]; decide) (by simpa using hfirst) h₂
    simpa using this
  have hwritten := Reaches.act (.write (.write (.act hread₂ h₃) h₄) h₅) h₆
  rw [List.nil_append, hw] at hwritten
  have hsecond : q ++ q <+: sent (twice request) a := by
    obtain ⟨v, hv, rfl, rfl⟩ : ∃ v, twice request = [v] ++ [v] ∧ v.request = q ∧ v.response = a :=
      ⟨_, rfl, hq, ha⟩
    have hsent := sent_append [v] [v] []
    rw [List.flatMap_singleton, List.flatMap_singleton, List.append_nil] at hsent
    rw [hv, hsent, List.prefix_append_right_inj]
    exact List.prefix_append _ _
  have hreaches := Reaches.read hwritten (by rw [← hq]; decide) hsecond h₇
  exact ⟨request, e₇, hreaches, hlen, serves hx hreaches⟩

end Libuo.HttpSession
