import Mathlib.Data.List.Basic
import Mathlib.Logic.Function.Basic
import Mathlib.Tactic.Common

/-!
# Byte-addressed memory

A memory maps an address to the byte stored there, or to `none` outside every
allocated object. Loads and stores outside the allocated objects fail, so an
execution that returns a value has touched only mapped addresses. The lemmas
describe blocks of consecutive stores, growing at either end.
-/

namespace Libuo.CMemory

/-- Memory as seen by one thread; a load of `m p = none` is out of bounds. -/
abbrev Memory := ℕ → Option UInt8

/-- Store one byte at a mapped address. -/
def store (m : Memory) (p : ℕ) (b : UInt8) : Option Memory :=
  if (m p).isSome then some (Function.update m p (some b)) else none

/-- The bytes of a list lie consecutively at an address. -/
def Holds (m : Memory) : ℕ → List UInt8 → Prop
  | _, [] => True
  | p, b :: bs => m p = some b ∧ Holds m (p + 1) bs

/-- Every address of a block is mapped. -/
def Mapped (m : Memory) (p n : ℕ) : Prop := ∀ i < n, (m (p + i)).isSome

/-- The memory after the bytes of a list have been stored at an address. -/
def write (m : Memory) (p : ℕ) (l : List UInt8) : Memory := fun q =>
  if p ≤ q ∧ q < p + l.length then l[q - p]? else m q

/-- `memcpy` to an address: one store after the other. -/
def writeBytes : Memory → ℕ → List UInt8 → Option Memory
  | m, _, [] => some m
  | m, p, b :: l => (store m p b).bind fun m => writeBytes m (p + 1) l

/-- The bytes that a function reads from an address on. -/
def readBytes (m : Memory) : ℕ → ℕ → Option (List UInt8)
  | _, 0 => some []
  | p, n + 1 => (m p).bind fun b => (readBytes m (p + 1) n).map (b :: ·)

/-- `memchr`: characters are read one after the other up to the one that is searched. -/
def memchr (m : Memory) (c : UInt8) : ℕ → ℕ → Option (Option ℕ)
  | _, 0 => some none
  | p, n + 1 => (m p).bind fun b => if b = c then some (some p) else memchr m c (p + 1) n

variable {m m' : Memory} {p q n : ℕ} {b c : UInt8} {l l' : List UInt8}

@[simp] theorem holds_nil : Holds m p [] := trivial

@[simp] theorem holds_cons : Holds m p (b :: l) ↔ m p = some b ∧ Holds m (p + 1) l := Iff.rfl

@[simp] theorem holds_append :
    Holds m p (l ++ l') ↔ Holds m p l ∧ Holds m (p + l.length) l' := by
  induction l generalizing p with
  | nil => simp
  | cons b l ih => simp [ih, and_assoc, Nat.add_right_comm, Nat.add_assoc]

theorem Holds.get (h : Holds m p l) {i : ℕ} (hi : i < l.length) : m (p + i) = some l[i] := by
  induction l generalizing p i with
  | nil => simp at hi
  | cons b l ih =>
    cases i with
    | zero => simpa using h.1
    | succ i => simpa [Nat.add_assoc, Nat.add_comm 1] using ih h.2 (by simpa using hi)

theorem holds_of_get (h : ∀ i (hi : i < l.length), m (p + i) = some l[i]) : Holds m p l := by
  induction l generalizing p with
  | nil => trivial
  | cons b l ih =>
    refine ⟨h 0 (Nat.succ_pos _), ih fun i hi => ?_⟩
    rw [Nat.add_assoc, Nat.add_comm 1]
    exact h (i + 1) (Nat.succ_lt_succ hi)

/-- A block is read alike in two memories that agree on its addresses. -/
theorem Holds.congr (h : Holds m p l) (he : ∀ i < l.length, m' (p + i) = m (p + i)) :
    Holds m' p l :=
  holds_of_get fun i hi => (he i hi).trans (h.get hi)

theorem Holds.mapped (h : Holds m p l) : Mapped m p l.length := fun i hi => by
  rw [h.get hi]
  rfl

/-- No store takes an address away. -/
def Keeps (m m' : Memory) : Prop := ∀ q, (m q).isSome → (m' q).isSome

theorem Keeps.trans {m₁ m₂ m₃ : Memory} (h : Keeps m₁ m₂) (h' : Keeps m₂ m₃) : Keeps m₁ m₃ :=
  fun q hq => h' q (h q hq)

theorem Mapped.keep (h : Mapped m p n) (hk : Keeps m m') : Mapped m' p n :=
  fun i hi => hk _ (h i hi)

/-- A store at a mapped address. -/
theorem exists_store (h : (m p).isSome) (b : UInt8) : ∃ m', store m p b = some m' ∧ Keeps m m' := by
  refine ⟨_, if_pos h, fun q hq => ?_⟩
  by_cases he : q = p
  · rw [he, Function.update_self]
    rfl
  · rwa [Function.update_of_ne he]

theorem Mapped.mono {k : ℕ} (h : Mapped m p n) (hk : k ≤ n) : Mapped m p k :=
  fun i hi => h i (Nat.lt_of_lt_of_le hi hk)

theorem Mapped.behind {k : ℕ} (h : Mapped m p (n + k)) : Mapped m (p + n) k := fun i hi => by
  rw [Nat.add_assoc]
  exact h _ (Nat.add_lt_add_left hi n)

@[simp] theorem write_nil (m : Memory) (p : ℕ) : write m p [] = m := by
  funext q
  simp only [write, List.length_nil, Nat.add_zero]
  rw [if_neg (by omega)]

theorem write_apply_of_lt (h : q < p) : write m p l q = m q := by
  rw [write, if_neg (by omega)]

theorem write_apply_of_ge (h : p + l.length ≤ q) : write m p l q = m q := by
  rw [write, if_neg (by omega)]

theorem write_apply_add {i : ℕ} (hi : i < l.length) : write m p l (p + i) = some l[i] := by
  rw [write, if_pos (by omega), Nat.add_sub_cancel_left, List.getElem?_eq_getElem hi]

theorem holds_write (m : Memory) (p : ℕ) (l : List UInt8) : Holds (write m p l) p l :=
  holds_of_get fun _ hi => write_apply_add hi

/-- A block apart from what is written stays as it is. -/
theorem Holds.apart (h : Holds m q l) (ho : p + l'.length ≤ q ∨ q + l.length ≤ p) :
    Holds (write m p l') q l := by
  refine h.congr fun i hi => ?_
  rcases ho with ho | ho
  · exact write_apply_of_ge (by omega)
  · exact write_apply_of_lt (by omega)

/-- A store immediately below a written block extends the block downwards. -/
theorem store_write_below (h : (m p).isSome) :
    store (write m (p + 1) l) p b = some (write m p (b :: l)) := by
  rw [store, write_apply_of_lt (Nat.lt_succ_self p), if_pos h]
  refine congrArg some (funext fun q => ?_)
  rcases Nat.lt_trichotomy q p with hq | rfl | hq
  · rw [Function.update_of_ne (by omega), write_apply_of_lt (by omega), write_apply_of_lt hq]
  · simp [write]
  · rw [Function.update_of_ne (by omega)]
    obtain ⟨k, rfl⟩ : ∃ k, q = p + 1 + k := ⟨q - (p + 1), by omega⟩
    have hs : p + 1 + k - p = k + 1 := by omega
    by_cases hk : k < l.length
    · rw [write_apply_add hk, write, if_pos (by simp; omega), hs]
      simp [hk]
    · rw [write_apply_of_ge (by omega), write_apply_of_ge (by simp; omega)]

/-- A store immediately above a written block extends the block upwards. -/
theorem store_write_above (h : (m (p + l.length)).isSome) :
    store (write m p l) (p + l.length) b = some (write m p (l ++ [b])) := by
  rw [store, write_apply_of_ge (Nat.le_refl _), if_pos h]
  refine congrArg some (funext fun q => ?_)
  by_cases hq : q = p + l.length
  · subst hq
    simp [write]
  · rw [Function.update_of_ne hq]
    simp only [write, List.length_append, List.length_singleton]
    by_cases hr : p ≤ q ∧ q < p + l.length
    · rw [if_pos hr, if_pos (by omega), List.getElem?_append_left (by omega)]
    · rw [if_neg hr, if_neg (by omega)]

theorem store_ne (h : store m p b = some m') (hq : q ≠ p) : m' q = m q := by
  rw [store] at h
  split_ifs at h
  rw [← Option.some.inj h, Function.update_of_ne hq]

theorem store_above (h : store m p b = some m') (hq : p < q) : m' q = m q :=
  store_ne h (Nat.ne_of_gt hq)

theorem writeBytes_write (h : Mapped m (p + l.length) l'.length) :
    writeBytes (write m p l) (p + l.length) l' = some (write m p (l ++ l')) := by
  induction l' generalizing l with
  | nil => rw [List.append_nil]; rfl
  | cons b l' ih =>
    have hnext : Mapped m (p + (l ++ [b]).length) l'.length := by
      intro i hi
      rw [List.length_append, List.length_singleton, Nat.add_assoc, Nat.add_assoc,
        Nat.add_comm 1 i, ← Nat.add_assoc p]
      exact h (i + 1) (Nat.succ_lt_succ hi)
    rw [writeBytes, store_write_above (by simpa using h 0 (Nat.succ_pos _)), Option.bind_some]
    have hrest := ih hnext
    rw [List.length_append, List.length_singleton, ← Nat.add_assoc] at hrest
    rw [hrest, List.append_assoc, List.singleton_append]

theorem writeBytes_eq (h : Mapped m p l.length) : writeBytes m p l = some (write m p l) := by
  have hwrite : writeBytes (write m p []) p l = some (write m p ([] ++ l)) := writeBytes_write h
  rwa [write_nil] at hwrite

theorem writeBytes_above (h : writeBytes m p l = some m') (hq : p + l.length ≤ q) :
    m' q = m q := by
  induction l generalizing m p with
  | nil =>
    obtain rfl := Option.some.inj h
    rfl
  | cons b l ih =>
    rw [List.length_cons] at hq
    rw [writeBytes, Option.bind_eq_some_iff] at h
    obtain ⟨m₁, hstore, h⟩ := h
    rw [ih h (by omega), store_above hstore (by omega)]

theorem Mapped.write (h : Mapped m q n) (p : ℕ) (l : List UInt8) :
    Mapped (CMemory.write m p l) q n := by
  intro i hi
  rw [CMemory.write]
  split
  · simp only [isSome_getElem?]
    omega
  · exact h i hi

/-- What is written last replaces what it covers. -/
theorem write_write (h : l.length ≤ l'.length) (a : List UInt8) :
    write (write m p (a ++ l)) (p + a.length) l' = write m p (a ++ l') := by
  funext q
  by_cases hq : p + a.length ≤ q ∧ q < p + a.length + l'.length
  · obtain ⟨i, rfl⟩ := Nat.exists_eq_add_of_le hq.1
    have hi : i < l'.length := by omega
    rw [write_apply_add hi, Nat.add_assoc, write_apply_add (by simp; omega)]
    simp [List.getElem_append_right]
  · rw [write, if_neg hq]
    rcases Nat.lt_or_ge q (p + a.length) with hlt | hge
    · rcases Nat.lt_or_ge q p with hlt' | hge'
      · rw [write_apply_of_lt hlt', write_apply_of_lt hlt']
      · obtain ⟨i, rfl⟩ := Nat.exists_eq_add_of_le hge'
        have hi : i < a.length := by omega
        rw [write_apply_add (by simp; omega), write_apply_add (by simp; omega),
          List.getElem_append_left hi, List.getElem_append_left hi]
    · rw [write_apply_of_ge (by simp; omega), write_apply_of_ge (by simp; omega)]

theorem readBytes_eq (h : Holds m p l) : readBytes m p l.length = some l := by
  induction l generalizing p with
  | nil => rfl
  | cons b l ih =>
    rw [List.length_cons, readBytes, h.1, Option.bind_some, ih h.2]
    rfl

theorem holds_of_readBytes (h : readBytes m p n = some l) : Holds m p l ∧ l.length = n := by
  induction n generalizing p l with
  | zero =>
    obtain rfl := Option.some.inj h
    exact ⟨trivial, rfl⟩
  | succ n ih =>
    rw [readBytes, Option.bind_eq_some_iff] at h
    obtain ⟨b, hb, h⟩ := h
    obtain ⟨l, hl, rfl⟩ := Option.map_eq_some_iff.mp h
    obtain ⟨hold, rfl⟩ := ih hl
    exact ⟨⟨hb, hold⟩, rfl⟩

theorem readBytes_isSome (h : Mapped m p n) : (readBytes m p n).isSome := by
  induction n generalizing p with
  | zero => rfl
  | succ n ih =>
    obtain ⟨b, hb⟩ := Option.isSome_iff_exists.mp (h 0 (Nat.succ_pos _))
    have hrest := ih (p := p + 1) fun i hi => by
      rw [Nat.add_assoc, Nat.add_comm 1]
      exact h (i + 1) (Nat.succ_lt_succ hi)
    rw [readBytes, show m p = some b from hb, Option.bind_some, Option.isSome_map]
    exact hrest

/-- A block has one content. -/
theorem Holds.unique (h : Holds m p l) (h' : Holds m p l') (hlen : l.length = l'.length) :
    l = l' := by
  have hread := readBytes_eq h
  rw [hlen, readBytes_eq h'] at hread
  exact (Option.some.inj hread).symm

theorem memchr_eq (h : Holds m p l) (hl : c ∉ l) (hc : m (p + l.length) = some c)
    (hn : l.length < n) : memchr m c p n = some (some (p + l.length)) := by
  induction l generalizing p n with
  | nil =>
    obtain ⟨n, rfl⟩ := Nat.exists_eq_add_one_of_ne_zero (Nat.ne_of_gt hn)
    rw [memchr, show m p = some c from hc, Option.bind_some, if_pos rfl]
    rfl
  | cons b l ih =>
    obtain ⟨n, rfl⟩ :=
      Nat.exists_eq_add_one_of_ne_zero (Nat.ne_of_gt (Nat.lt_of_le_of_lt (Nat.zero_le _) hn))
    have hb : b ≠ c := fun hb => hl (hb ▸ .head _)
    rw [List.length_cons, Nat.add_comm l.length, ← Nat.add_assoc] at hc ⊢
    rw [memchr, h.1, Option.bind_some, if_neg hb]
    exact ih h.2 (fun hmem => hl (.tail _ hmem)) hc (Nat.lt_of_succ_lt_succ hn)

/-- Without the character, the search ends with the bytes that it is given. -/
theorem memchr_none (h : Holds m p l) (hl : c ∉ l) : memchr m c p l.length = some none := by
  induction l generalizing p with
  | nil => rfl
  | cons b l ih =>
    have hb : b ≠ c := fun hb => hl (hb ▸ .head _)
    rw [List.length_cons, memchr, h.1, Option.bind_some, if_neg hb]
    exact ih h.2 fun hmem => hl (.tail _ hmem)

/-- A search that gets to the end of an object without having found the character. -/
theorem memchr_outside (h : Holds m p l) (hl : c ∉ l) (hend : m (p + l.length) = none)
    (hn : l.length < n) : memchr m c p n = none := by
  induction l generalizing p n with
  | nil =>
    obtain ⟨n, rfl⟩ := Nat.exists_eq_add_one_of_ne_zero (Nat.ne_of_gt hn)
    rw [memchr, show m p = none from hend, Option.bind_none]
  | cons b l ih =>
    obtain ⟨n, rfl⟩ :=
      Nat.exists_eq_add_one_of_ne_zero (Nat.ne_of_gt (Nat.lt_of_le_of_lt (Nat.zero_le _) hn))
    have hb : b ≠ c := fun hb => hl (hb ▸ .head _)
    rw [List.length_cons, Nat.add_comm l.length, ← Nat.add_assoc] at hend
    rw [memchr, h.1, Option.bind_some, if_neg hb]
    exact ih h.2 (fun hmem => hl (.tail _ hmem)) hend (Nat.lt_of_succ_lt_succ hn)

/-- What `memchr` has found. -/
theorem memchr_some (h : memchr m c p n = some (some q)) :
    ∃ l, Holds m p l ∧ c ∉ l ∧ m (p + l.length) = some c ∧ l.length < n ∧ q = p + l.length := by
  induction n generalizing p with
  | zero => simp [memchr] at h
  | succ n ih =>
    rw [memchr, Option.bind_eq_some_iff] at h
    obtain ⟨b, hb, h⟩ := h
    split at h
    · obtain rfl := Option.some.inj (Option.some.inj h)
      exact ⟨[], trivial, by simp, by simpa [← ‹b = c›] using hb, Nat.succ_pos _, rfl⟩
    · obtain ⟨l, hold, hl, hc, hlen, rfl⟩ := ih h
      have hadd : p + 1 + l.length = p + (b :: l).length := by
        rw [List.length_cons, Nat.add_assoc, Nat.add_comm 1]
      exact ⟨b :: l, ⟨hb, hold⟩, by simp [hl, Ne.symm ‹b ≠ c›], hadd ▸ hc,
        Nat.succ_lt_succ hlen, hadd⟩

theorem memchr_isSome (h : Mapped m p n) : (memchr m c p n).isSome := by
  induction n generalizing p with
  | zero => rfl
  | succ n ih =>
    obtain ⟨b, hb⟩ := Option.isSome_iff_exists.mp (h 0 (Nat.succ_pos _))
    rw [memchr, show m p = some b from hb, Option.bind_some]
    split
    · rfl
    · refine ih fun i hi => ?_
      rw [Nat.add_assoc, Nat.add_comm 1]
      exact h (i + 1) (Nat.succ_lt_succ hi)

end Libuo.CMemory
