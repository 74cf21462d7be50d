import Libuo.Jwt

/-!
# Accepted tokens

`uo_jwt_verify` accepts a token if and only if its third part is the encoded message
authentication code of the first two, whatever is behind the token in memory.
-/

namespace Libuo.Jwt
open CMemory CStrings SextetCodec

/-- A header and claims with their signature. -/
def Signed (hmac : List UInt8 → List UInt8 → Digest) (key token : List UInt8) : Prop :=
  ∃ h p s, token = h ++ chr '.' :: (p ++ chr '.' :: s) ∧ chr '.' ∉ h ∧ chr '.' ∉ p ∧
    s = Base64Url.text (hmac key (h ++ chr '.' :: p)).1

variable {hmac : List UInt8 → List UInt8 → Digest} {m : Memory} {jwt : ℕ}
  {key token : List UInt8}

theorem length_text_digest (d : Digest) : (Base64Url.text d.1).length = 43 := by
  rw [Base64Url.text, Alphabet.length_bareText, d.2]

theorem mapped_hs256 : Mapped hs256 0 43 := fun i hi => by
  rw [hs256, Nat.zero_add, if_pos hi]
  rfl

theorem encode_hs256 (d : Digest) :
    ((writeBytes hs256 0 d.1).bind fun h => (Base64Url.encode h 0 0 32).bind fun r =>
      readBytes r.1 0 43) = some (Base64Url.text d.1) := by
  have hwrite : writeBytes hs256 0 d.1 = some (write hs256 0 d.1) :=
    writeBytes_eq (mapped_hs256.mono (by rw [d.2]; omega))
  have hmapped : Mapped (write hs256 0 d.1) 0 (Base64Url.text d.1).length := by
    intro i hi
    rw [length_text_digest] at hi
    by_cases hlt : i < d.1.length
    · rw [write_apply_add hlt]
      rfl
    · rw [write_apply_of_ge (by omega)]
      exact mapped_hs256 i hi
  have hencode := Base64Url.encode_eq (holds_write hs256 0 d.1) (by rw [d.2]; omega) hmapped
    (.inl (Nat.le_refl _))
  have hread := readBytes_eq (holds_write (write hs256 0 d.1) 0 (Base64Url.text d.1))
  rw [d.2] at hencode
  rw [length_text_digest] at hread
  rw [hwrite, Option.bind_some, hencode, Option.bind_some, hread]

/-- The comparison at the end, for what is read of the token. -/
theorem compare_eq (d : Digest) (s : List UInt8) :
    ((writeBytes hs256 0 d.1).bind fun h => (Base64Url.encode h 0 0 32).bind fun r =>
      (readBytes r.1 0 43).bind fun t => some (s == t)) = some (s == Base64Url.text d.1) := by
  have h := congrArg (Option.bind · fun t => some (s == t)) (encode_hs256 d)
  simpa only [Option.bind_assoc, Option.bind_some] using h

/-- A token of three parts is accepted if the third one is right. -/
theorem verify_parts {h p s : List UInt8} (hold : Holds m jwt (h ++ chr '.' :: (p ++ chr '.' :: s)))
    (hh : chr '.' ∉ h) (hp : chr '.' ∉ p) (hs : s.length = 43) :
    verify hmac m jwt (h ++ chr '.' :: (p ++ chr '.' :: s)).length key =
      some (s == Base64Url.text (hmac key (h ++ chr '.' :: p)).1) := by
  have hsigned : Holds m jwt (h ++ chr '.' :: p) := by
    have : h ++ chr '.' :: (p ++ chr '.' :: s) = (h ++ chr '.' :: p) ++ chr '.' :: s := by simp
    rw [this, holds_append] at hold
    exact hold.1
  obtain ⟨hheader, hdot, hrest⟩ := holds_append.mp hold
  obtain ⟨hpayload, hdot', hsignature⟩ := holds_append.mp hrest
  have hlen : (h ++ chr '.' :: (p ++ chr '.' :: s)).length =
      h.length + (p.length + 45) := by
    simp only [List.length_append, List.length_cons, hs]
  have hfirst := memchr_eq (n := h.length + (p.length + 45)) hheader hh hdot (by omega)
  have hsecond := memchr_eq
    (n := h.length + (p.length + 45) + (jwt + h.length + 1 - jwt)) hpayload hp hdot' (by omega)
  have hlast : ¬ jwt + (h.length + (p.length + 45)) ≠ jwt + h.length + 1 + p.length + 1 + 43 := by
    omega
  have hread := readBytes_eq hsigned
  have hread' := readBytes_eq hsignature
  rw [List.length_append, List.length_cons] at hread
  rw [hs] at hread'
  rw [hlen, verify]
  simp only [Option.bind_eq_bind, hfirst, Option.bind_some, hsecond, if_neg hlast]
  rw [show jwt + h.length + 1 + p.length - jwt = h.length + (p.length + 1) by omega, hread,
    Option.bind_some]
  simp only [hread', Option.bind_some]
  exact compare_eq _ _

theorem exists_parts (hold : Holds m jwt token)
    (hv : verify hmac m jwt token.length key = some true) :
    ∃ h p s, token = h ++ chr '.' :: (p ++ chr '.' :: s) ∧ chr '.' ∉ h ∧ chr '.' ∉ p ∧
      s.length = 43 := by
  rw [verify] at hv
  simp only [Option.bind_eq_bind, Option.bind_eq_some_iff] at hv
  obtain ⟨first, hfirst, hv⟩ := hv
  cases first with
  | none => simp at hv
  | some headerEnd =>
    simp only [Option.bind_eq_some_iff] at hv
    obtain ⟨second, hsecond, hv⟩ := hv
    cases second with
    | none => simp at hv
    | some payloadEnd =>
      simp only at hv
      split at hv
      · simp at hv
      · rename_i hlast
        simp only [Option.bind_eq_some_iff] at hv
        obtain ⟨-, -, -, -, -, -, s, hs, -⟩ := hv
        obtain ⟨h, hheader, hh, hdot, -, rfl⟩ := memchr_some hfirst
        obtain ⟨p, hpayload, hp, hdot', -, rfl⟩ := memchr_some hsecond
        obtain ⟨hsignature, hlen⟩ := holds_of_readBytes hs
        refine ⟨h, p, s, hold.unique ?_ ?_, hh, hp, hlen⟩
        · exact holds_append.mpr ⟨hheader, hdot, holds_append.mpr ⟨hpayload, hdot', hsignature⟩⟩
        · simp only [List.length_append, List.length_cons]
          omega

theorem verify_isSome (hmapped : Mapped m jwt (3 * token.length)) :
    (verify hmac m jwt token.length key).isSome := by
  have hshift {q n : ℕ} (hq : jwt ≤ q) (hn : q + n ≤ jwt + 3 * token.length) : Mapped m q n := by
    intro i hi
    have := hmapped (q - jwt + i) (by omega)
    rwa [← Nat.add_assoc, Nat.add_sub_cancel' hq] at this
  obtain ⟨first, hfirst⟩ := Option.isSome_iff_exists.mp
    (memchr_isSome (c := chr '.') (hshift (n := token.length) (Nat.le_refl _) (by omega)))
  rw [verify]
  simp only [Option.bind_eq_bind, hfirst, Option.bind_some]
  cases first with
  | none => rfl
  | some headerEnd =>
    obtain ⟨h, -, -, -, hlen, rfl⟩ := memchr_some hfirst
    obtain ⟨second, hsecond⟩ := Option.isSome_iff_exists.mp
      (memchr_isSome (c := chr '.') (hshift (q := jwt + h.length + 1)
        (n := token.length + (jwt + h.length + 1 - jwt)) (by omega) (by omega)))
    simp only [hsecond, Option.bind_some]
    cases second with
    | none => rfl
    | some payloadEnd =>
      obtain ⟨p, -, -, -, -, rfl⟩ := memchr_some hsecond
      simp only
      split
      · rfl
      · obtain ⟨signed, hsigned⟩ := Option.isSome_iff_exists.mp (readBytes_isSome
          (hshift (q := jwt) (n := jwt + h.length + 1 + p.length - jwt) (by omega) (by omega)))
        obtain ⟨s, hs⟩ := Option.isSome_iff_exists.mp (readBytes_isSome
          (hshift (q := jwt + h.length + 1 + p.length + 1) (n := 43) (by omega) (by omega)))
        rw [hsigned, Option.bind_some]
        simp only [hs, Option.bind_some]
        rw [compare_eq]
        rfl

/-- A token is accepted if and only if it has been signed. The second search may read behind the
token; what is there decides at most whether it ends. -/
theorem verify_iff_signed (hold : Holds m jwt token) :
    (verify hmac m jwt token.length key = some true ↔ Signed hmac key token) ∧
      (Mapped m jwt (3 * token.length) → (verify hmac m jwt token.length key).isSome) := by
  refine ⟨⟨fun hv => ?_, ?_⟩, verify_isSome⟩
  · obtain ⟨h, p, s, rfl, hh, hp, hs⟩ := exists_parts hold hv
    rw [verify_parts hold hh hp hs] at hv
    exact ⟨h, p, s, rfl, hh, hp, beq_iff_eq.mp (Option.some.inj hv)⟩
  · rintro ⟨h, p, s, rfl, hh, hp, rfl⟩
    rw [verify_parts hold hh hp (length_text_digest _), beq_self_eq_true]

/-- A token with the parts `a` and `b`, for a code that does not depend on the text. -/
def sampleToken : List UInt8 :=
  CText.text "a.b." ++ Base64Url.text (List.replicate 32 7)

theorem verify_iff_signed_sample :
    Holds (write (fun _ => none) 0 sampleToken) 0 sampleToken ∧
      verify (fun _ _ => ⟨List.replicate 32 7, rfl⟩) (write (fun _ => none) 0 sampleToken) 0
        sampleToken.length [] = some true :=
  ⟨holds_write _ _ _, (verify_iff_signed (holds_write _ _ _)).1.mpr
    ⟨CText.text "a", CText.text "b", _, rfl, by decide, by decide, rfl⟩⟩

end Libuo.Jwt
