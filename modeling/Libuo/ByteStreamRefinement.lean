import Libuo.ByteStreams

/-!
# Smaller steps

A party that takes smaller steps than another one: each step of its own is a step of the other or
none at all, and the same bytes are handed over and read. What is known about the other party holds
of it, and it goes on where the other one does.
-/

namespace Libuo.ByteStreams

variable {B S T U K : Type}

/-- A party takes some of any bytes. -/
def Takes (P : Party B S) (s : S) : Prop :=
  ∀ stream, stream ≠ [] → ∃ n c rest s', cut stream n = some (c, rest) ∧ P.read s c = some s'

/-- The states of `P` stand for those of `Q`. When `P` reads, `Q` is `ready` to. -/
structure Refines (P : Party B S) (Q : Party B T) (ready : T → Prop) (sim : S → T → Prop) :
    Prop where
  act : ∀ {s t s'}, sim s t → P.act s = some s' →
    sim s' t ∨ ∃ t', Q.act t = some t' ∧ sim s' t'
  write : ∀ {s t n b s'}, sim s t → P.write s n = some (b, s') →
    ∃ n' t', Q.write t n' = some (b, t') ∧ sim s' t'
  read : ∀ {s t c s'}, sim s t → P.read s c = some s' →
    ready t ∧ ∀ t', Q.read t c = some t' → sim s' t'
  moves : ∀ {s t}, sim s t → Moves Q t → Moves P s
  takes : ∀ {s t c t'}, sim s t → Q.read t c = some t' → Moves P s ∨ Takes P s

variable {P : Party B S} {Q : Party B T} {ready : T → Prop} {sim : S → T → Prop}
  {R : K → K → Prop} {inp out : List B → List B} {A : K → List B → List B → T → Prop}
  {s : S} {t : T} {x r stream : List B}

theorem Follows.refine (hQ : Follows Q R inp out A) (hR : ∀ k, R k k)
    (hwaits : ∀ {k r w t}, A k r w t → ready t → Waits Q (inp w) r t)
    (h : Refines P Q ready sim) :
    Follows P R inp out fun k r w s => ∃ t, sim s t ∧ A k r w t where
  written := fun ⟨_, _, hA⟩ => hQ.written hA
  act := by
    rintro k r w s s' ⟨t, hsim, hA⟩ hs
    rcases h.act hsim hs with hsim' | ⟨t', ht, hsim'⟩
    · exact ⟨k, hR k, t, hsim', hA⟩
    · obtain ⟨k', hk, hA'⟩ := hQ.act hA ht
      exact ⟨k', hk, t', hsim', hA'⟩
  write := by
    rintro k r w s n b s' ⟨t, hsim, hA⟩ hs
    obtain ⟨n', t', ht, hsim'⟩ := h.write hsim hs
    obtain ⟨hb, hA'⟩ := hQ.write hA ht
    exact ⟨hb, t', hsim', hA'⟩
  read := by
    rintro k r w s c s' ⟨t, hsim, hA⟩ hc hp hs
    obtain ⟨hready, hsim'⟩ := h.read hsim hs
    obtain ⟨t', ht⟩ := hwaits hA hready c hc hp
    exact ⟨t', hsim' t' ht, hQ.read hA hc hp ht⟩

theorem Refines.goes (h : Refines P Q ready sim) (hsim : sim s t)
    (hgoes : Moves Q t ∨ Waits Q x r t) (hp : r ++ stream <+: x) :
    Moves P s ∨ (stream ≠ [] → Takes P s) := by
  rcases hgoes with hmoves | hwaits
  · exact .inl (h.moves hsim hmoves)
  · by_cases hstream : stream = []
    · exact .inr fun hne => absurd hstream hne
    · obtain ⟨t', ht⟩ := hwaits stream hstream hp
      exact (h.takes hsim ht).imp_right fun htakes _ => htakes

/-- `Q'` is `Q` with its states seen in another way. -/
structure Views (Q : Party B T) (Q' : Party B U) (v : T → U) : Prop where
  act : ∀ t, Q'.act (v t) = (Q.act t).map v
  write : ∀ t n, Q'.write (v t) n = (Q.write t n).map fun r => (r.1, v r.2)
  read : ∀ t c, Q'.read (v t) c = (Q.read t c).map v

theorem Refines.view {Q' : Party B U} {v : T → U} {ready' : U → Prop}
    (h : Refines P Q ready sim) (hv : Views Q Q' v) (hready : ∀ {t}, ready t → ready' (v t)) :
    Refines P Q' ready' fun s u => ∃ t, sim s t ∧ u = v t where
  act := by
    rintro s u s' ⟨t, hsim, rfl⟩ hs
    rcases h.act hsim hs with hsim' | ⟨t', ht, hsim'⟩
    · exact .inl ⟨t, hsim', rfl⟩
    · exact .inr ⟨v t', by rw [hv.act, ht]; rfl, t', hsim', rfl⟩
  write := by
    rintro s u n b s' ⟨t, hsim, rfl⟩ hs
    obtain ⟨n', t', ht, hsim'⟩ := h.write hsim hs
    exact ⟨n', v t', by rw [hv.write, ht]; rfl, t', hsim', rfl⟩
  read := by
    rintro s u c s' ⟨t, hsim, rfl⟩ hs
    obtain ⟨hr, hsim'⟩ := h.read hsim hs
    refine ⟨hready hr, fun u' hu => ?_⟩
    rw [hv.read] at hu
    obtain ⟨t', ht, rfl⟩ := Option.map_eq_some_iff.mp hu
    exact ⟨t', hsim' t' ht, rfl⟩
  moves := by
    rintro s u ⟨t, hsim, rfl⟩ hmoves
    refine h.moves hsim ?_
    rcases hmoves with ⟨u', hu⟩ | ⟨n, r, hr⟩
    · rw [hv.act] at hu
      obtain ⟨t', ht, -⟩ := Option.map_eq_some_iff.mp hu
      exact .inl ⟨t', ht⟩
    · rw [hv.write] at hr
      obtain ⟨r', hr', -⟩ := Option.map_eq_some_iff.mp hr
      exact .inr ⟨n, r', hr'⟩
  takes := by
    rintro s u c u' ⟨t, hsim, rfl⟩ hu
    rw [hv.read] at hu
    obtain ⟨t', ht, -⟩ := Option.map_eq_some_iff.mp hu
    exact h.takes hsim ht

theorem exists_next_takes {σ : System B S U} {l : Link B S U}
    (hleft : Moves σ.left l.left ∨ (l.toLeft ≠ [] → Takes σ.left l.left))
    (hright : Moves σ.right l.right ∨ (l.toRight ≠ [] → Takes σ.right l.right))
    (hturn : l.toLeft ≠ [] ∨ l.toRight ≠ [] ∨ Moves σ.left l.left ∨ Moves σ.right l.right) :
    ∃ side m l', σ.next l side m = some l' := by
  have hmoves : Moves σ.left l.left → ∃ side m l', σ.next l side m = some l' := by
    rintro (⟨s, hs⟩ | ⟨i, b, hs⟩)
    · exact ⟨.left, .act, _, by rw [System.next, hs]; rfl⟩
    · exact ⟨.left, .write i, _, by rw [System.next, hs]; rfl⟩
  have hmoves' : Moves σ.right l.right → ∃ side m l', σ.next l side m = some l' := by
    rintro (⟨s, hs⟩ | ⟨i, b, hs⟩)
    · exact ⟨.right, .act, _, by rw [System.next, hs]; rfl⟩
    · exact ⟨.right, .write i, _, by rw [System.next, hs]; rfl⟩
  rcases hturn with hne | hne | hturn | hturn
  · rcases hleft with hleft | hleft
    · exact hmoves hleft
    · obtain ⟨i, c, rest, s, hcut, hs⟩ := hleft hne _ hne
      exact ⟨.left, .read i, _, by rw [System.next, hcut, Option.bind_some, hs]; rfl⟩
  · rcases hright with hright | hright
    · exact hmoves' hright
    · obtain ⟨i, c, rest, s, hcut, hs⟩ := hright hne _ hne
      exact ⟨.right, .read i, _, by rw [System.next, hcut, Option.bind_some, hs]; rfl⟩
  · exact hmoves hturn
  · exact hmoves' hturn

end Libuo.ByteStreams
