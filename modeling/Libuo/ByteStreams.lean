import Mathlib.Data.List.Basic
import Mathlib.Tactic.Common

/-!
# Two parties and their streams

Two parties are connected by two streams. A party takes steps of its own, hands some bytes to its
stream, or is given the next bytes that the other one has handed over, any number of them at once.
What is known about each party alone, as long as the other one sends what it should, is put
together to what holds of both.
-/

namespace Libuo.ByteStreams

variable {B S T : Type}

/-- What a party may do. It hands over at most as many bytes as it is asked for. -/
structure Party (B S : Type) where
  act : S → Option S
  write : S → ℕ → Option (List B × S)
  read : S → List B → Option S

/-- The states of the parties, and what has been handed over and not been read. -/
structure Link (B S T : Type) where
  left : S
  right : T
  toRight : List B
  toLeft : List B

inductive Side where
  | left | right

inductive Move where
  | act
  | write (n : ℕ)
  | read (n : ℕ)

structure System (B S T : Type) where
  left : Party B S
  right : Party B T

/-- The first bytes of a stream, at least one, and those behind them. -/
def cut (stream : List B) (n : ℕ) : Option (List B × List B) :=
  if 0 < n ∧ n ≤ stream.length then some (stream.take n, stream.drop n) else none

namespace System

variable (σ : System B S T)

/-- One move of one party. -/
def next (l : Link B S T) : Side → Move → Option (Link B S T)
  | .left, .act => (σ.left.act l.left).map fun s => { l with left := s }
  | .left, .write n => (σ.left.write l.left n).map fun r =>
    { l with left := r.2, toRight := l.toRight ++ r.1 }
  | .left, .read n => (cut l.toLeft n).bind fun c => (σ.left.read l.left c.1).map fun s =>
    { l with left := s, toLeft := c.2 }
  | .right, .act => (σ.right.act l.right).map fun s => { l with right := s }
  | .right, .write n => (σ.right.write l.right n).map fun r =>
    { l with right := r.2, toLeft := l.toLeft ++ r.1 }
  | .right, .read n => (cut l.toRight n).bind fun c => (σ.right.read l.right c.1).map fun s =>
    { l with right := s, toRight := c.2 }

/-- The moves of both parties, in any order. -/
def run : Link B S T → List (Side × Move) → Option (Link B S T)
  | l, [] => some l
  | l, m :: ms => (σ.next l m.1 m.2).bind fun l' => run l' ms

end System

variable {K K' : Type}

/-- A party that has read `r` and handed over `w` is in a state with `A k r w`, where `k` goes down
in `R` with each step of its own. It hands over what `out` makes of what it has read, as long as it
reads what `inp` makes of what it has handed over. -/
structure Follows (P : Party B S) (R : K → K → Prop) (inp out : List B → List B)
    (A : K → List B → List B → S → Prop) : Prop where
  written : ∀ {k r w s}, A k r w s → w <+: out r
  act : ∀ {k r w s s'}, A k r w s → P.act s = some s' → ∃ k', R k' k ∧ A k' r w s'
  write : ∀ {k r w s n b s'}, A k r w s → P.write s n = some (b, s') → b ≠ [] ∧ A k r (w ++ b) s'
  read : ∀ {k r w s c s'}, A k r w s → c ≠ [] → r ++ c <+: inp w → P.read s c = some s' →
    A k (r ++ c) w s'

/-- A party waits for bytes, and takes any of those it is to read. -/
def Waits (P : Party B S) (inp r : List B) (s : S) : Prop :=
  ∀ c, c ≠ [] → r ++ c <+: inp → ∃ s', P.read s c = some s'

/-- A party can go on by itself. -/
def Moves (P : Party B S) (s : S) : Prop :=
  (∃ s', P.act s = some s') ∨ ∃ n r, P.write s n = some r

/-- The states in which a party can be, with what it has read and handed over, when it reads only
what it is to read. -/
inductive Reaches (P : Party B S) (inp : List B → List B) (s₀ : S) :
    List B → List B → S → Prop
  | start : Reaches P inp s₀ [] [] s₀
  | act {r w : List B} {s s' : S} (h : Reaches P inp s₀ r w s) (hs : P.act s = some s') :
    Reaches P inp s₀ r w s'
  | write {r w b : List B} {s s' : S} {n : ℕ} (h : Reaches P inp s₀ r w s)
    (hs : P.write s n = some (b, s')) : Reaches P inp s₀ r (w ++ b) s'
  | read {r w c : List B} {s s' : S} (h : Reaches P inp s₀ r w s) (hc : c ≠ [])
    (hp : r ++ c <+: inp w) (hs : P.read s c = some s') : Reaches P inp s₀ (r ++ c) w s'

theorem Reaches.follows {P : Party B S} {R : K → K → Prop} {inp out : List B → List B}
    {A : K → List B → List B → S → Prop} (hP : Follows P R inp out A) {k : K} {s₀ s : S}
    {r w : List B} (h₀ : A k [] [] s₀) (h : Reaches P inp s₀ r w s) : ∃ k', A k' r w s := by
  induction h with
  | start => exact ⟨k, h₀⟩
  | act h hs ih =>
    obtain ⟨k₁, h₁⟩ := ih
    obtain ⟨k₂, -, h₂⟩ := hP.act h₁ hs
    exact ⟨k₂, h₂⟩
  | write h hs ih =>
    obtain ⟨k₁, h₁⟩ := ih
    exact ⟨k₁, (hP.write h₁ hs).2⟩
  | read h hc hp hs ih =>
    obtain ⟨k₁, h₁⟩ := ih
    exact ⟨k₁, hP.read h₁ hc hp hs⟩

/-- A party makes no less of more. -/
def Grows (f : List B → List B) : Prop := ∀ {r r'}, r <+: r' → f r <+: f r'

/-- Nor does it make more than all of it. -/
structure Produces (f : List B → List B) (all : List B) : Prop where
  mono : Grows f
  all : ∀ r, f r <+: all

theorem produces_const (all : List B) : Produces (fun _ => all) all :=
  ⟨fun _ => List.prefix_refl _, fun _ => List.prefix_refl _⟩

variable {σ : System B S T} {x y r w r' w' r₁ w₁ r₁' w₁' : List B} {f g : List B → List B}
  {R : K → K → Prop} {R' : K' → K' → Prop} {A : K → List B → List B → S → Prop}
  {A' : K' → List B → List B → T → Prop} {l l' : Link B S T} {stream c rest : List B} {n : ℕ}
  {k k₁ : K} {k' k₁' : K'}

theorem cut_eq_some (h : cut stream n = some (c, rest)) : stream = c ++ rest ∧ c ≠ [] := by
  rw [cut] at h
  split at h
  · rename_i hn
    obtain ⟨rfl, rfl⟩ := Prod.mk.inj (Option.some.inj h)
    refine ⟨(List.take_append_drop _ _).symm, List.ne_nil_of_length_pos ?_⟩
    rw [List.length_take]
    omega
  · cases h

theorem exists_cut (h : stream ≠ []) : ∃ n, cut stream n = some (stream, []) := by
  refine ⟨stream.length, ?_⟩
  rw [cut, if_pos ⟨List.length_pos_of_ne_nil h, Nat.le_refl _⟩, List.take_length,
    List.drop_length]

theorem read_part (hw : w = r' ++ (c ++ rest)) (hout : w <+: x) :
    w = r' ++ c ++ rest ∧ r' ++ c <+: x := by
  rw [← List.append_assoc] at hw
  refine ⟨hw, List.IsPrefix.trans ?_ hout⟩
  rw [hw]
  exact List.prefix_append _ _

/-- Each party has read a part of what the other one has handed over, and the rest is on the way. -/
structure Linked (A : K → List B → List B → S → Prop) (A' : K' → List B → List B → T → Prop)
    (k : K) (r w : List B) (k' : K') (r' w' : List B) (l : Link B S T) : Prop where
  left : A k r w l.left
  right : A' k' r' w' l.right
  toRight : w = r' ++ l.toRight
  toLeft : w' = r ++ l.toLeft

/-- One of the parties takes a step of its own, or more bytes have been handed over or read. -/
inductive Advance (R : K → K → Prop) (R' : K' → K' → Prop) (k : K) (r w : List B) (k' : K')
    (r' w' : List B) : K → List B → List B → K' → List B → List B → Prop
  | left {k₁ : K} (h : R k₁ k) : Advance R R' k r w k' r' w' k₁ r w k' r' w'
  | right {k₁' : K'} (h : R' k₁' k') : Advance R R' k r w k' r' w' k r w k₁' r' w'
  | writeLeft {b : List B} (h : b ≠ []) : Advance R R' k r w k' r' w' k r (w ++ b) k' r' w'
  | writeRight {b : List B} (h : b ≠ []) : Advance R R' k r w k' r' w' k r w k' r' (w' ++ b)
  | readLeft {b : List B} (h : b ≠ []) : Advance R R' k r w k' r' w' k (r ++ b) w k' r' w'
  | readRight {b : List B} (h : b ≠ []) : Advance R R' k r w k' r' w' k r w k' (r' ++ b) w'

theorem Linked.written (hf : Grows f) (hleft : Follows σ.left R g f A)
    (h : Linked A A' k r w k' r' w' l) : w <+: f w' := by
  refine (hleft.written h.left).trans (hf ?_)
  rw [h.toLeft]
  exact List.prefix_append _ _

theorem Linked.written' (hg : Grows g) (hright : Follows σ.right R' f g A')
    (h : Linked A A' k r w k' r' w' l) : w' <+: g w := by
  refine (hright.written h.right).trans (hg ?_)
  rw [h.toRight]
  exact List.prefix_append _ _

theorem Linked.next (hf : Grows f) (hg : Grows g) (hleft : Follows σ.left R g f A)
    (hright : Follows σ.right R' f g A') (h : Linked A A' k r w k' r' w' l) {side : Side}
    {m : Move} (hnext : σ.next l side m = some l') : ∃ k₁ r₁ w₁ k₁' r₁' w₁',
      Linked A A' k₁ r₁ w₁ k₁' r₁' w₁' l' ∧
        Advance R R' k r w k' r' w' k₁ r₁ w₁ k₁' r₁' w₁' := by
  have hout := h.written hf hleft
  have hout' := h.written' hg hright
  obtain ⟨hA, hA', hw, hw'⟩ := h
  cases side with
  | left =>
    cases m with
    | act =>
      obtain ⟨s, hs, rfl⟩ := Option.map_eq_some_iff.mp hnext
      obtain ⟨k₁, hk, hA₁⟩ := hleft.act hA hs
      exact ⟨k₁, r, w, k', r', w', ⟨hA₁, hA', hw, hw'⟩, .left hk⟩
    | write i =>
      obtain ⟨⟨b, s⟩, hs, rfl⟩ := Option.map_eq_some_iff.mp hnext
      obtain ⟨hb, hA₁⟩ := hleft.write hA hs
      refine ⟨k, r, w ++ b, k', r', w', ⟨hA₁, hA', ?_, hw'⟩, .writeLeft hb⟩
      rw [hw, List.append_assoc]
    | read i =>
      obtain ⟨⟨c, rest⟩, hcut, hnext⟩ := Option.bind_eq_some_iff.mp hnext
      obtain ⟨s, hs, rfl⟩ := Option.map_eq_some_iff.mp hnext
      obtain ⟨hstream, hc⟩ := cut_eq_some hcut
      rw [hstream] at hw'
      obtain ⟨hw₁, hpart⟩ := read_part hw' hout'
      exact ⟨k, r ++ c, w, k', r', w', ⟨hleft.read hA hc hpart hs, hA', hw, hw₁⟩, .readLeft hc⟩
  | right =>
    cases m with
    | act =>
      obtain ⟨s, hs, rfl⟩ := Option.map_eq_some_iff.mp hnext
      obtain ⟨k₁, hk, hA₁⟩ := hright.act hA' hs
      exact ⟨k, r, w, k₁, r', w', ⟨hA, hA₁, hw, hw'⟩, .right hk⟩
    | write i =>
      obtain ⟨⟨b, s⟩, hs, rfl⟩ := Option.map_eq_some_iff.mp hnext
      obtain ⟨hb, hA₁⟩ := hright.write hA' hs
      refine ⟨k, r, w, k', r', w' ++ b, ⟨hA, hA₁, hw, ?_⟩, .writeRight hb⟩
      rw [hw', List.append_assoc]
    | read i =>
      obtain ⟨⟨c, rest⟩, hcut, hnext⟩ := Option.bind_eq_some_iff.mp hnext
      obtain ⟨s, hs, rfl⟩ := Option.map_eq_some_iff.mp hnext
      obtain ⟨hstream, hc⟩ := cut_eq_some hcut
      rw [hstream] at hw
      obtain ⟨hw₁, hpart⟩ := read_part hw hout
      exact ⟨k, r, w, k', r' ++ c, w', ⟨hA, hright.read hA' hc hpart hs, hw₁, hw'⟩, .readRight hc⟩

theorem Linked.run (hf : Grows f) (hg : Grows g) (hleft : Follows σ.left R g f A)
    (hright : Follows σ.right R' f g A') (h : Linked A A' k r w k' r' w' l)
    {ms : List (Side × Move)} (hrun : σ.run l ms = some l') :
    ∃ k₁ r₁ w₁ k₁' r₁' w₁', Linked A A' k₁ r₁ w₁ k₁' r₁' w₁' l' := by
  induction ms generalizing l k r w k' r' w' with
  | nil =>
    obtain rfl := Option.some.inj hrun
    exact ⟨k, r, w, k', r', w', h⟩
  | cons m ms ih =>
    obtain ⟨l₁, hnext, hrun⟩ := Option.bind_eq_some_iff.mp hrun
    obtain ⟨_, _, _, _, _, _, h₁, -⟩ := h.next hf hg hleft hright hnext
    exact ih h₁ hrun

section Bounded

variable {A : ℕ → List B → List B → S → Prop} {A' : ℕ → List B → List B → T → Prop}

/-- At most `n` moves are left. -/
def Inv (x y : List B) (A : ℕ → List B → List B → S → Prop)
    (A' : ℕ → List B → List B → T → Prop) (n : ℕ) (l : Link B S T) : Prop :=
  ∃ k r w k' r' w', Linked A A' k r w k' r' w' l ∧
    k + k' + (x.length - r.length) + (x.length - w'.length) + (y.length - r'.length) +
      (y.length - w.length) ≤ n

theorem Inv.next (hf : Produces f y) (hg : Produces g x) (hleft : Follows σ.left (· < ·) g f A)
    (hright : Follows σ.right (· < ·) f g A') (h : Inv x y A A' n l) {side : Side} {m : Move}
    (hnext : σ.next l side m = some l') : ∃ n', n' < n ∧ Inv x y A A' n' l' := by
  obtain ⟨k, r, w, k', r', w', hlinked, hn⟩ := h
  obtain ⟨k₁, r₁, w₁, k₁', r₁', w₁', hlinked₁, hadvance⟩ :=
    hlinked.next hf.mono hg.mono hleft hright hnext
  have hw : w₁.length ≤ y.length := ((hlinked₁.written hf.mono hleft).trans (hf.all _)).length_le
  have hw' : w₁'.length ≤ x.length :=
    ((hlinked₁.written' hg.mono hright).trans (hg.all _)).length_le
  have hr : r₁.length ≤ w₁'.length := by
    rw [hlinked₁.toLeft, List.length_append]
    exact Nat.le_add_right _ _
  have hr' : r₁'.length ≤ w₁.length := by
    rw [hlinked₁.toRight, List.length_append]
    exact Nat.le_add_right _ _
  refine ⟨n - 1, ?_, k₁, r₁, w₁, k₁', r₁', w₁', hlinked₁, ?_⟩ <;>
  · cases hadvance with
    | left h | right h => omega
    | writeLeft h | writeRight h | readLeft h | readRight h =>
      have hpos := List.length_pos_of_ne_nil h
      rw [List.length_append] at *
      omega

/-- All moves: the invariant holds, and there are no more moves than there were bytes and steps
to begin with. -/
theorem Inv.run (hf : Produces f y) (hg : Produces g x) (hleft : Follows σ.left (· < ·) g f A)
    (hright : Follows σ.right (· < ·) f g A') (h : Inv x y A A' n l) {ms : List (Side × Move)}
    (hrun : σ.run l ms = some l') : ms.length ≤ n ∧ Inv x y A A' (n - ms.length) l' := by
  induction ms generalizing l n with
  | nil =>
    obtain rfl := Option.some.inj hrun
    exact ⟨Nat.zero_le _, h⟩
  | cons m ms ih =>
    obtain ⟨l₁, hnext, hrun⟩ := Option.bind_eq_some_iff.mp hrun
    obtain ⟨n₁, hn, h₁⟩ := h.next hf hg hleft hright hnext
    obtain ⟨hlen, k, r, w, k', r', w', hlinked, hk⟩ := ih h₁ hrun
    refine ⟨by rw [List.length_cons]; omega, k, r, w, k', r', w', hlinked, ?_⟩
    rw [List.length_cons]
    omega

end Bounded

/-- Some move is possible, unless both parties wait or have come to their ends: one that can go on
by itself does, and one that waits takes what is on the way. -/
theorem exists_next (hw : w = r' ++ l.toRight) (hw' : w' = r ++ l.toLeft)
    (hout : w <+: y) (hout' : w' <+: x)
    (hleft : Moves σ.left l.left ∨ Waits σ.left x r l.left)
    (hright : Moves σ.right l.right ∨ Waits σ.right y r' l.right)
    (hturn : ¬ (r = w' ∧ r' = w) ∨ Moves σ.left l.left ∨ Moves σ.right l.right) :
    ∃ side m l', σ.next l side m = some l' := by
  have hmoves : ∀ h : Moves σ.left l.left, ∃ side m l', σ.next l side m = some l' := by
    rintro (⟨s, hs⟩ | ⟨i, b, hs⟩)
    · exact ⟨.left, .act, _, by rw [System.next, hs]; rfl⟩
    · exact ⟨.left, .write i, _, by rw [System.next, hs]; rfl⟩
  have hmoves' : ∀ h : Moves σ.right l.right, ∃ side m l', σ.next l side m = some l' := by
    rintro (⟨s, hs⟩ | ⟨i, b, hs⟩)
    · exact ⟨.right, .act, _, by rw [System.next, hs]; rfl⟩
    · exact ⟨.right, .write i, _, by rw [System.next, hs]; rfl⟩
  rcases hleft with hleft | hleft
  · exact hmoves hleft
  rcases hright with hright | hright
  · exact hmoves' hright
  by_cases htoLeft : l.toLeft = []
  · by_cases htoRight : l.toRight = []
    · rcases hturn with hturn | hturn | hturn
      · rw [htoLeft, List.append_nil] at hw'
        rw [htoRight, List.append_nil] at hw
        exact absurd ⟨hw'.symm, hw.symm⟩ hturn
      · exact hmoves hturn
      · exact hmoves' hturn
    · obtain ⟨i, hcut⟩ := exists_cut htoRight
      obtain ⟨s, hs⟩ := hright l.toRight htoRight (hw ▸ hout)
      exact ⟨.right, .read i, _, by rw [System.next, hcut, Option.bind_some, hs]; rfl⟩
  · obtain ⟨i, hcut⟩ := exists_cut htoLeft
    obtain ⟨s, hs⟩ := hleft l.toLeft htoLeft (hw' ▸ hout')
    exact ⟨.left, .read i, _, by rw [System.next, hcut, Option.bind_some, hs]; rfl⟩

end Libuo.ByteStreams
