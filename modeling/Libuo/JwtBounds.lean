import Libuo.JwtVerify

/-!
# What is read of a token

The second search of `uo_jwt_verify` is given the length of the token, to which what lies before
the payload is added, where it had to be taken off. It stays in the token only if there is another
dot to be found.
-/

namespace Libuo.Jwt
open CMemory CStrings

/-- A destination with room for the payload of a token and a NUL. -/
def Room (m : Memory) (token : List UInt8) (dst : ℕ) : Prop :=
  ∀ h p s, token = h ++ chr '.' :: (p ++ chr '.' :: s) → chr '.' ∉ h → chr '.' ∉ p →
    Mapped m dst (p.length / 4 * 3 + (p.length % 4 - 1) + 1)

/-- The functions that are given a token read nothing but its bytes: they return in every memory
that holds it, whatever else is mapped there. -/
structure ReadsInside (hmac : List UInt8 → List UInt8 → Digest) (token : List UInt8) : Prop where
  verify (m : Memory) (jwt : ℕ) (key : List UInt8) : Holds m jwt token →
    (Jwt.verify hmac m jwt token.length key).isSome
  decodePayload (m : Memory) (jwt : ℕ) (dst : Option ℕ) : 1 ≤ token.length → Holds m jwt token →
    (∀ d ∈ dst, Room m token d) → (Jwt.decodePayload m dst jwt token.length).isSome

variable {hmac : List UInt8 → List UInt8 → Digest} {m : Memory} {jwt : ℕ}
  {key token h p s : List UInt8}

theorem dots_cases (token : List UInt8) : chr '.' ∉ token ∨
    (∃ h p, token = h ++ chr '.' :: p ∧ chr '.' ∉ h ∧ chr '.' ∉ p) ∨
      ∃ h p s, token = h ++ chr '.' :: (p ++ chr '.' :: s) ∧ chr '.' ∉ h ∧ chr '.' ∉ p := by
  by_cases hdot : chr '.' ∈ token
  · obtain ⟨h, t, rfl, hh⟩ := List.eq_append_cons_of_mem hdot
    by_cases hdot' : chr '.' ∈ t
    · obtain ⟨p, s, rfl, hp⟩ := List.eq_append_cons_of_mem hdot'
      exact .inr (.inr ⟨h, p, s, rfl, hh, hp⟩)
    · exact .inr (.inl ⟨h, t, rfl, hh, hdot'⟩)
  · exact .inl hdot

theorem count_one (hh : chr '.' ∉ h) (hp : chr '.' ∉ p) :
    (h ++ chr '.' :: p).count (chr '.') = 1 := by
  rw [List.count_append, List.count_cons_self, List.count_eq_zero_of_not_mem hh,
    List.count_eq_zero_of_not_mem hp]

theorem count_two : (h ++ chr '.' :: (p ++ chr '.' :: s)).count (chr '.') ≠ 1 := by
  rw [List.count_append, List.count_cons_self, List.count_append, List.count_cons_self]
  omega

theorem verify_undotted (hold : Holds m jwt token) (hdot : chr '.' ∉ token) :
    verify hmac m jwt token.length key = some false := by
  rw [verify, Option.bind_eq_bind, memchr_none hold hdot, Option.bind_some]

theorem verify_dotted (hold : Holds m jwt (h ++ chr '.' :: (p ++ chr '.' :: s)))
    (hh : chr '.' ∉ h) (hp : chr '.' ∉ p) :
    (verify hmac m jwt (h ++ chr '.' :: (p ++ chr '.' :: s)).length key).isSome := by
  by_cases hs : s.length = 43
  · rw [verify_parts hold hh hp hs]
    rfl
  · have hlen : (h ++ chr '.' :: (p ++ chr '.' :: s)).length =
        h.length + (p.length + (s.length + 2)) := by
      simp only [List.length_append, List.length_cons]
      omega
    obtain ⟨hheader, hdot, hrest⟩ := holds_append.mp hold
    obtain ⟨hpayload, hdot', -⟩ := holds_append.mp hrest
    have hfirst := memchr_eq (n := h.length + (p.length + (s.length + 2))) hheader hh hdot
      (by omega)
    have hsecond := memchr_eq
      (n := h.length + (p.length + (s.length + 2)) + (jwt + h.length + 1 - jwt)) hpayload hp hdot'
      (by omega)
    rw [hlen, verify]
    simp only [Option.bind_eq_bind, hfirst, Option.bind_some, hsecond]
    rw [if_pos (by omega)]
    rfl

theorem verify_outside (hh : chr '.' ∉ h) (hp : chr '.' ∉ p) :
    verify hmac (write (fun _ => none) 0 (h ++ chr '.' :: p)) 0 (h ++ chr '.' :: p).length key =
      none := by
  obtain ⟨hheader, hdot, hpayload⟩ :=
    holds_append.mp (holds_write (fun _ => none) 0 (h ++ chr '.' :: p))
  have hlen : (h ++ chr '.' :: p).length = h.length + (p.length + 1) := by
    rw [List.length_append, List.length_cons]
  have hend : write (fun _ => none) 0 (h ++ chr '.' :: p) (0 + h.length + 1 + p.length) = none :=
    write_apply_of_ge (by omega)
  have hfirst := memchr_eq (n := h.length + (p.length + 1)) hheader hh hdot (by omega)
  have hsecond := memchr_outside
    (n := h.length + (p.length + 1) + (0 + h.length + 1 - 0)) hpayload hp hend (by omega)
  rw [verify, hlen]
  simp only [Option.bind_eq_bind, hfirst, Option.bind_some, hsecond, Option.bind_none]

/-- What is between two dots that have been found one after the other. -/
theorem exists_payload (hold : Holds m jwt token) (hheader : Holds m jwt h)
    (hdot : m (jwt + h.length) = some (chr '.')) (hpayload : Holds m (jwt + h.length + 1) p)
    (hdot' : m (jwt + h.length + 1 + p.length) = some (chr '.'))
    (hlen : h.length + p.length + 2 ≤ token.length) :
    ∃ s, token = h ++ chr '.' :: (p ++ chr '.' :: s) := by
  obtain ⟨k, hk⟩ : ∃ k, k = h.length + p.length + 2 := ⟨_, rfl⟩
  have htake : token.take k = h ++ chr '.' :: (p ++ [chr '.']) := by
    rw [← List.take_append_drop k token, holds_append] at hold
    refine hold.1.unique ?_ ?_
    · exact holds_append.mpr ⟨hheader, hdot, holds_append.mpr ⟨hpayload, hdot', trivial⟩⟩
    · rw [List.length_take, Nat.min_eq_left (by omega)]
      simp only [List.length_append, List.length_cons, List.length_nil]
      omega
  refine ⟨token.drop k, ?_⟩
  conv_lhs => rw [← List.take_append_drop k token, htake]
  simp only [List.append_assoc, List.cons_append, List.nil_append]

theorem decodePayload_isSome {dst : Option ℕ} (hpos : 1 ≤ token.length) (hold : Holds m jwt token)
    (hroom : ∀ d ∈ dst, Room m token d) :
    (decodePayload m dst jwt token.length).isSome := by
  have hmapped := hold.mapped
  have hle : (token.length + (2 ^ 64 - 1)) % 2 ^ 64 ≤ token.length - 1 := by omega
  obtain ⟨first, hfirst⟩ := Option.isSome_iff_exists.mp
    (memchr_isSome (c := chr '.') (hmapped.mono (hle.trans (Nat.sub_le _ _))))
  rw [decodePayload]
  simp only [Option.bind_eq_bind, hfirst, Option.bind_some]
  cases first with
  | none => rfl
  | some headerEnd =>
    obtain ⟨h, hheader, hh, hdot, hlen, rfl⟩ := memchr_some hfirst
    have hrest : Mapped m (jwt + h.length + 1) (token.length - (h.length + 1)) := by
      rw [Nat.add_assoc]
      exact Mapped.behind (hmapped.mono (by omega))
    have hn : token.length - (jwt + h.length + 1 - jwt) = token.length - (h.length + 1) := by omega
    simp only [hn]
    obtain ⟨second, hsecond⟩ := Option.isSome_iff_exists.mp (memchr_isSome (c := chr '.') hrest)
    simp only [hsecond, Option.bind_some]
    cases second with
    | none => rfl
    | some payloadEnd =>
      obtain ⟨p, hpayload, hp, hdot', hlen', rfl⟩ := memchr_some hsecond
      obtain ⟨s, hs⟩ := exists_payload hold hheader hdot hpayload hdot' (by omega)
      have hdst : Mapped m (dst.getD (jwt + h.length + 1))
          (p.length / 4 * 3 + (p.length % 4 - 1) + 1) := by
        cases dst with
        | none => exact hrest.mono (by omega)
        | some d => exact hroom d rfl h p s hs hh hp
      obtain ⟨m', hdecode, hkeep⟩ :=
        Base64Url.exists_decode hpayload.mapped (hdst.mono (Nat.le_succ _))
      obtain ⟨m'', hstore, -⟩ := exists_store
        (hkeep _ (hdst (p.length / 4 * 3 + (p.length % 4 - 1)) (Nat.lt_succ_self _))) 0
      simp only [Nat.add_sub_cancel_left, hdecode, Option.bind_some, hstore]
      rfl

/-- Both functions stay inside of a token if and only if it has not exactly one dot. -/
theorem readsInside_iff (hmac : List UInt8 → List UInt8 → Digest) (token : List UInt8) :
    ReadsInside hmac token ↔ token.count (chr '.') ≠ 1 := by
  constructor
  · intro h hcount
    rcases dots_cases token with hdot | ⟨h', p, rfl, hh, hp⟩ | ⟨h', p, s, rfl, -, -⟩
    · rw [List.count_eq_zero_of_not_mem hdot] at hcount
      exact absurd hcount (by decide)
    · have hread := h.verify _ 0 [] (holds_write (fun _ => none) 0 _)
      rw [verify_outside hh hp] at hread
      exact Bool.noConfusion hread
    · exact count_two hcount
  · intro hcount
    refine ⟨fun m jwt key hold => ?_, fun m jwt dst => decodePayload_isSome⟩
    rcases dots_cases token with hdot | ⟨h', p, rfl, hh, hp⟩ | ⟨h', p, s, rfl, hh, hp⟩
    · rw [verify_undotted hold hdot]
      rfl
    · exact absurd (count_one hh hp) hcount
    · exact verify_dotted hold hh hp

/-- Behind the only dot there is no other one to be found. -/
theorem not_readsInside_dot :
    ¬ ReadsInside (fun _ _ => ⟨List.replicate 32 7, rfl⟩) (CText.text "a.b") := by
  intro h
  have hread := h.verify _ 0 [] (holds_write (fun _ => none) 0 _)
  exact absurd hread (by decide)

end Libuo.Jwt
