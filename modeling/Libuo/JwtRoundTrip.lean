import Libuo.JwtVerify

/-!
# Tokens that are built

A token is built in a buffer, part after part; every part is put behind the last one or
in its place. The two bytes before the end of the claims are replaced, which are the
separator behind the last claim, or, without any claim, the start of the claims.
-/

namespace Libuo.Jwt
open CMemory CStrings CText SextetCodec Json

def claimText (claim : List UInt8 × Arg) : List UInt8 := encodeKvp (some claim.1) claim.2

/-- The claims as they should be. -/
def payload (claims : List (List UInt8 × Arg)) : List UInt8 :=
  text "\x7b " ++ List.intercalate (text ", ") (claims.map claimText) ++ text " \x7d"

/-- The claims before the last two bytes are replaced. -/
def opened (claims : List (List UInt8 × Arg)) : List UInt8 :=
  text "\x7b " ++ claims.flatMap fun claim => claimText claim ++ text ", "

/-- The claims after that. -/
def patched (claims : List (List UInt8 × Arg)) : List UInt8 :=
  (opened claims).take ((opened claims).length - 2) ++ text " \x7d"

/-- The first part of a token and the end of it. -/
def header : List UInt8 := Base64Url.text headerJson ++ text "."

/-- What is signed. -/
def signedText (claims : List (List UInt8 × Arg)) : List UInt8 :=
  header ++ Base64Url.text (patched claims)

variable (hmac : List UInt8 → List UInt8 → Digest)

/-- The token that is built. -/
def token (claims : List (List UInt8 × Arg)) (key : List UInt8) : List UInt8 :=
  signedText claims ++ text "." ++ Base64Url.text (hmac key (signedText claims)).1

/-- The buffer has space for the token and a NUL, and is apart from the string literal. -/
structure Placed (m : Memory) (jwt literal size : ℕ) : Prop where
  source : Holds m literal headerJson
  room : Mapped m jwt size
  apart : literal + 32 ≤ jwt ∨ jwt + size ≤ literal

variable {hmac} {m : Memory} {jwt lit size : ℕ} {claims : List (List UInt8 × Arg)}
  {key a s : List UInt8}

theorem flatMap_separated (claim : List UInt8 × Arg) (claims : List (List UInt8 × Arg)) :
    ((claim :: claims).flatMap fun claim => claimText claim ++ text ", ") =
      List.intercalate (text ", ") ((claim :: claims).map claimText) ++ text ", " := by
  induction claims generalizing claim with
  | nil => simp [List.intercalate]
  | cons claim' claims ih =>
    rw [List.flatMap_cons, ih]
    simp only [List.map_cons, List.intercalate_cons_cons, List.append_assoc]

/-- With a claim, the separator behind the last one is replaced. -/
theorem patched_eq (h : claims ≠ []) : patched claims = payload claims := by
  obtain ⟨claim, claims, rfl⟩ := List.exists_cons_of_ne_nil h
  rw [patched, payload, opened, flatMap_separated, ← List.append_assoc]
  refine congrArg (· ++ text " \x7d") (List.take_left' ?_)
  simp only [List.length_append]
  rfl

theorem length_opened (claims : List (List UInt8 × Arg)) : 2 ≤ (opened claims).length := by
  rw [opened, List.length_append]
  exact Nat.le_add_right 2 _

theorem length_patched (claims : List (List UInt8 × Arg)) :
    (patched claims).length = (opened claims).length := by
  have := length_opened claims
  rw [patched, List.length_append, List.length_take]
  change min _ _ + 2 = _
  omega

theorem append_eq (h : Mapped m (jwt + a.length) s.length) :
    append (write m jwt a) (jwt + a.length) s =
      some (write m jwt (a ++ s), jwt + (a ++ s).length) := by
  rw [append, writeBytes_write h, List.length_append, ← Nat.add_assoc]
  rfl

theorem appendClaim_eq {claim : List UInt8 × Arg}
    (h : Mapped m (jwt + a.length) (claimText claim ++ text ", ").length) :
    appendClaim (write m jwt a) (jwt + a.length) claim =
      some (write m jwt (a ++ (claimText claim ++ text ", ")),
        jwt + (a ++ (claimText claim ++ text ", ")).length) := by
  rw [List.length_append] at h
  have hroom : Mapped m (jwt + (a ++ claimText claim).length) (text ", ").length := by
    rw [List.length_append, ← Nat.add_assoc]
    exact h.behind
  rw [appendClaim]
  change (append _ _ (claimText claim)).bind _ = _
  rw [append_eq (h.mono (Nat.le_add_right _ _)), Option.bind_some]
  change append _ _ _ = _
  rw [append_eq hroom, List.append_assoc]

theorem appendClaims_eq (h : Mapped m (jwt + a.length)
      (claims.flatMap fun claim => claimText claim ++ text ", ").length) :
    claims.foldlM (fun r claim => appendClaim r.1 r.2 claim) (write m jwt a, jwt + a.length) =
      some (write m jwt (a ++ claims.flatMap fun claim => claimText claim ++ text ", "),
        jwt + (a ++ claims.flatMap fun claim => claimText claim ++ text ", ").length) := by
  induction claims generalizing a with
  | nil => simp
  | cons claim claims ih =>
    rw [List.flatMap_cons, List.length_append] at h
    have hrest := ih (a := a ++ (claimText claim ++ text ", ")) (by
      rw [List.length_append, ← Nat.add_assoc]
      exact h.behind)
    rw [List.foldlM_cons, appendClaim_eq (h.mono (Nat.le_add_right _ _)), Option.bind_eq_bind,
      Option.bind_some, hrest, List.flatMap_cons, List.append_assoc]

theorem length_headerJson : headerJson.length = 32 := by decide

theorem length_header : header.length = 44 := by
  rw [header, List.length_append, Base64Url.text, Alphabet.length_bareText, length_headerJson]
  rfl

theorem length_text_patched (claims : List (List UInt8 × Arg)) :
    (Base64Url.text (patched claims)).length = (4 * (patched claims).length + 2) / 3 := by
  rw [Base64Url.text, Alphabet.length_bareText]

theorem length_token (hmac : List UInt8 → List UInt8 → Digest)
    (claims : List (List UInt8 × Arg)) (key : List UInt8) :
    (token hmac claims key).length = (Base64Url.text (patched claims)).length + 88 := by
  rw [token, signedText]
  simp only [List.length_append, length_header, length_text_digest]
  rw [show (text ".").length = 1 from rfl]
  omega

theorem appendHeader_eq (h : Placed m jwt lit size) (hsize : 46 ≤ size) :
    appendHeader m jwt lit =
      some (write m jwt (header ++ text "\x7b "), jwt + (header ++ text "\x7b ").length) := by
  have htext : (Base64Url.text headerJson).length = 43 := by
    rw [Base64Url.text, Alphabet.length_bareText, length_headerJson]
  have hroom : Mapped m jwt (43 + 3) := h.room.mono hsize
  have hencode : Base64Url.encode m jwt lit headerJson.length = _ :=
    Base64Url.encode_eq h.source (by rw [length_headerJson]; omega)
      (hroom.mono (by rw [htext]; omega)) (by have := h.apart; rw [htext]; omega)
  have hroom' : Mapped m (jwt + (Base64Url.text headerJson).length) (text ".\x7b ").length := by
    rw [htext]
    exact hroom.behind
  rw [length_headerJson] at hencode
  rw [appendHeader]
  change (Base64Url.encode m jwt lit 32).bind _ = _
  rw [hencode, Option.bind_some]
  change append _ _ _ = _
  rw [append_eq hroom', header, List.append_assoc]
  rfl

theorem append_patched (hroom : Mapped m jwt (header ++ opened claims).length) :
    append (write m jwt (header ++ opened claims)) (jwt + (header ++ opened claims).length - 2)
        (text " \x7d") =
      some (write m jwt (header ++ patched claims), jwt + (header ++ patched claims).length) := by
  have htwo := length_opened claims
  have hpatched := length_patched claims
  obtain ⟨front, hfront⟩ : ∃ front, front =
    header ++ (opened claims).take ((opened claims).length - 2) := ⟨_, rfl⟩
  have hsplit : header ++ opened claims =
      front ++ (opened claims).drop ((opened claims).length - 2) := by
    rw [hfront, List.append_assoc, List.take_append_drop]
  have hlen : front.length + 2 = (header ++ opened claims).length := by
    rw [hfront]
    simp only [List.length_append, List.length_take]
    omega
  have hmapped : Mapped (write m jwt (header ++ opened claims)) (jwt + front.length)
      (text " \x7d").length := by
    refine Mapped.write (Mapped.behind ?_) _ _
    rw [show (text " \x7d").length = 2 from rfl, hlen]
    exact hroom
  have hpos : jwt + (header ++ opened claims).length - 2 = jwt + front.length := by omega
  have hend :
      jwt + front.length + (text " \x7d").length = jwt + (header ++ patched claims).length := by
    rw [List.length_append, hpatched, ← List.length_append, ← hlen]
    rfl
  rw [hpos, append, writeBytes_eq hmapped, hsplit, write_write, Option.map_some, hend, hfront,
    List.append_assoc, patched]
  rw [List.length_drop]
  change _ ≤ 2
  omega

/-- A text in its place is encoded over itself. -/
theorem encode_inPlace (hlen : s.length < 2 ^ 62)
    (hroom : Mapped m jwt (a.length + (Base64Url.text s).length)) :
    Base64Url.encode (write m jwt (a ++ s)) (jwt + a.length) (jwt + a.length) s.length =
      some (write m jwt (a ++ Base64Url.text s), jwt + (a ++ Base64Url.text s).length) := by
  have hgrow : s.length ≤ (Base64Url.text s).length := by
    rw [Base64Url.text, Alphabet.length_bareText]
    omega
  have hold : Holds (write m jwt (a ++ s)) (jwt + a.length) s :=
    (holds_append.mp (holds_write m jwt (a ++ s))).2
  rw [Base64Url.encode_eq hold hlen (hroom.behind.write _ _) (.inl (Nat.le_refl _)),
    write_write hgrow, List.length_append, Nat.add_assoc]

/-- The signature is put behind the claims, which are encoded. -/
theorem appendSignature_eq (hlen : (patched claims).length < 2 ^ 62)
    (hroom : Mapped m jwt ((token hmac claims key).length + 1)) :
    appendSignature hmac (write m jwt (header ++ opened claims))
        (jwt + (header ++ opened claims).length) jwt key =
      some (write m jwt (token hmac claims key ++ [0]), jwt + (token hmac claims key).length) := by
  obtain ⟨d, hd⟩ : ∃ d, d = hmac key (signedText claims) := ⟨_, rfl⟩
  have htoken := length_token hmac claims key
  have hpatched := length_patched claims
  have htext := length_text_patched claims
  have hheader := length_header
  have hsigned : (signedText claims).length = 44 + (Base64Url.text (patched claims)).length := by
    rw [signedText, List.length_append, hheader]
  have hopened : Mapped m jwt (header ++ opened claims).length := hroom.mono (by
    rw [List.length_append]
    omega)
  have hpayload : Mapped m jwt (header.length + (Base64Url.text (patched claims)).length) :=
    hroom.mono (by omega)
  have hencoded := encode_inPlace hlen hpayload
  have hstop : (signedText claims ++ text ".").length = (signedText claims).length + 1 := by
    rw [List.length_append]
    rfl
  have hdot : Mapped m (jwt + (signedText claims).length) (text ".").length := by
    refine Mapped.behind (hroom.mono ?_)
    rw [show (text ".").length = 1 from rfl]
    omega
  have hread := readBytes_eq (holds_append.mp (holds_write m jwt (signedText claims ++ text "."))).1
  have hdigest : Mapped m (jwt + (signedText claims ++ text ".").length) d.1.length := by
    refine Mapped.behind (hroom.mono ?_)
    rw [hstop, d.2]
    omega
  have hsignature : Mapped m jwt ((signedText claims ++ text ".").length +
      (Base64Url.text d.1).length) :=
    hroom.mono (by rw [hstop, length_text_digest]; omega)
  have hencode := encode_inPlace (by rw [d.2]; omega) hsignature
  have hlast : (m (jwt + (token hmac claims key).length)).isSome := hroom _ (Nat.lt_succ_self _)
  have htoken' : token hmac claims key = (signedText claims ++ text ".") ++ Base64Url.text d.1 := by
    rw [token, hd]
  rw [hheader] at hencoded
  rw [d.2] at hencode
  rw [appendSignature]
  change (append _ _ (text " \x7d")).bind _ = _
  rw [append_patched hopened, Option.bind_some]
  change (Base64Url.encode _ (jwt + 44) (jwt + 44)
    (jwt + (header ++ patched claims).length - (jwt + 44))).bind _ = _
  rw [show jwt + (header ++ patched claims).length - (jwt + 44) = (patched claims).length by
    rw [List.length_append, hheader]; omega, hencoded, Option.bind_some]
  change (append (write m jwt (signedText claims)) (jwt + (signedText claims).length)
    (text ".")).bind _ = _
  rw [append_eq hdot, Option.bind_some]
  change (readBytes _ jwt (jwt + (signedText claims ++ text ".").length - 1 - jwt)).bind _ = _
  rw [show jwt + (signedText claims ++ text ".").length - 1 - jwt = (signedText claims).length by
    rw [hstop]; omega, hread, Option.bind_some]
  change (writeBytes _ _ (hmac key (signedText claims)).1).bind _ = _
  rw [← hd, writeBytes_write hdigest, Option.bind_some]
  change (Base64Url.encode _ _ _ 32).bind _ = _
  rw [hencode, Option.bind_some]
  change (store _ _ 0).bind _ = _
  rw [← htoken', store_write_above hlast, Option.bind_some]

/-- The token and a NUL are written, and nothing else. -/
theorem build_eq (h : Placed m jwt lit ((token hmac claims key).length + 1))
    (hlen : (patched claims).length < 2 ^ 62) :
    build hmac m jwt lit claims key =
      some (write m jwt (token hmac claims key ++ [0]), jwt + (token hmac claims key).length) := by
  have htoken := length_token hmac claims key
  have hpatched := length_patched claims
  have htext := length_text_patched claims
  have hheader := length_header
  have hopen : (header ++ text "\x7b ").length +
      (claims.flatMap fun claim => claimText claim ++ text ", ").length =
        44 + (opened claims).length := by
    rw [opened]
    simp only [List.length_append, hheader]
    omega
  have hroom : Mapped m (jwt + (header ++ text "\x7b ").length)
      (claims.flatMap fun claim => claimText claim ++ text ", ").length :=
    Mapped.behind (h.room.mono (by rw [hopen]; omega))
  rw [build]
  change (appendHeader m jwt lit).bind _ = _
  rw [appendHeader_eq h (by omega), Option.bind_some]
  change Option.bind (List.foldlM _ (write m jwt (header ++ text "\x7b "), _) claims) _ = _
  rw [appendClaims_eq hroom, Option.bind_some]
  change appendSignature hmac (write m jwt ((header ++ text "\x7b ") ++ _)) _ jwt key = _
  rw [List.append_assoc]
  exact appendSignature_eq hlen h.room

theorem dot_not_mem_text (x : List UInt8) : chr '.' ∉ Base64Url.text x := by
  intro h
  obtain ⟨s, hs, hdot⟩ := Base64Url.alphabet.mem_bareText h
  have hne : ∀ s < 64, Base64Url.btoaUrl s ≠ chr '.' := Base64.forall_sextet (by decide +kernel)
  exact hne s hs hdot.symm

theorem token_eq (hmac : List UInt8 → List UInt8 → Digest) (claims : List (List UInt8 × Arg))
    (key : List UInt8) : token hmac claims key =
      Base64Url.text headerJson ++ chr '.' :: (Base64Url.text (patched claims) ++
        chr '.' :: Base64Url.text (hmac key (signedText claims)).1) := by
  simp [token, signedText, header, text]

theorem signed_token (hmac : List UInt8 → List UInt8 → Digest)
    (claims : List (List UInt8 × Arg)) (key : List UInt8) :
    Signed hmac key (token hmac claims key) := by
  refine ⟨_, _, _, token_eq hmac claims key, dot_not_mem_text _, dot_not_mem_text _, ?_⟩
  have hsigned : signedText claims =
      Base64Url.text headerJson ++ chr '.' :: Base64Url.text (patched claims) := by
    simp [signedText, header, text]
  rw [hsigned]

/-- What is decoded of a token, in place when there is no destination. -/
theorem decodePayload_eq (dst : Option ℕ) (hold : Holds m jwt (token hmac claims key))
    (hlen : (patched claims).length < 2 ^ 62)
    (hroom : Mapped m (dst.getD (jwt + 44)) ((patched claims).length + 1))
    (ho : dst.getD (jwt + 44) ≤ jwt + 44 ∨
      jwt + (token hmac claims key).length ≤ dst.getD (jwt + 44)) :
    decodePayload m dst jwt (token hmac claims key).length =
      some (write m (dst.getD (jwt + 44)) (patched claims ++ [0]), some (dst.getD (jwt + 44))) := by
  have htoken := length_token hmac claims key
  have htext := length_text_patched claims
  have hheader : (Base64Url.text headerJson).length = 43 := by
    rw [Base64Url.text, Alphabet.length_bareText, length_headerJson]
  rw [token_eq] at hold
  obtain ⟨hfirst, hdot, hrest⟩ := holds_append.mp hold
  obtain ⟨hsecond, hdot', -⟩ := holds_append.mp hrest
  have hmod : ((token hmac claims key).length + (2 ^ 64 - 1)) % 2 ^ 64 =
      (token hmac claims key).length - 1 := by omega
  have hsearch := memchr_eq hfirst (dot_not_mem_text _) hdot
    (show _ < (token hmac claims key).length - 1 by omega)
  have hsearch' := memchr_eq hsecond (dot_not_mem_text _) hdot'
    (show _ < (token hmac claims key).length - (jwt + (Base64Url.text headerJson).length + 1 - jwt)
      by omega)
  rw [hheader] at hsearch hsearch' hsecond
  have hdecode := Base64Url.decode_eq hsecond (hroom.mono (Nat.le_succ _)) (by omega)
  have hlast : (m (dst.getD (jwt + 44) + (patched claims).length)).isSome :=
    hroom _ (Nat.lt_succ_self _)
  rw [decodePayload, hmod, hsearch]
  change (memchr m (chr '.') (jwt + 43 + 1) _).bind _ = _
  rw [hsearch', Option.bind_some]
  change (Base64Url.decode m _ (jwt + 43 + 1) _).bind _ = _
  rw [Nat.add_sub_cancel_left, hdecode, Option.bind_some]
  change (store _ _ 0).bind _ = _
  rw [store_write_above hlast, Option.bind_some]

/-- A token that is built is accepted, and its claims are decoded, in place or into another
buffer. -/
def Faithful (hmac : List UInt8 → List UInt8 → Digest) (claims : List (List UInt8 × Arg))
    (key : List UInt8) : Prop :=
  ∀ (m : Memory) (jwt literal : ℕ),
    Placed m jwt literal ((token hmac claims key).length + 1) →
    ∃ m' stop, build hmac m jwt literal claims key = some (m', stop) ∧
      verify hmac m' jwt (stop - jwt) key = some true ∧
      (∃ n p, decodePayload m' none jwt (stop - jwt) = some (n, some p) ∧
        Holds n p (payload claims ++ [0])) ∧
      ∀ dst, Mapped m' dst ((payload claims).length + 1) →
        (dst + (payload claims).length + 1 ≤ jwt ∨ stop < dst) →
        ∃ n, decodePayload m' (some dst) jwt (stop - jwt) = some (n, some dst) ∧
          Holds n dst (payload claims ++ [0])

theorem faithful_of_ne_nil (h : claims ≠ []) (hlen : (payload claims).length < 2 ^ 62) :
    Faithful hmac claims key := by
  intro m jwt literal hplaced
  have hpatched := patched_eq h
  rw [← hpatched] at hlen ⊢
  have htoken := length_token hmac claims key
  have htext := length_text_patched claims
  have hold : Holds (write m jwt (token hmac claims key ++ [0])) jwt (token hmac claims key) :=
    (holds_append.mp (holds_write m jwt _)).1
  have hstop : jwt + (token hmac claims key).length - jwt = (token hmac claims key).length :=
    Nat.add_sub_cancel_left _ _
  refine ⟨_, _, build_eq hplaced hlen, ?_, ?_, fun dst hdst ho => ?_⟩
  · rw [hstop]
    exact (verify_iff_signed hold).1.mpr (signed_token hmac claims key)
  · have hroom : Mapped (write m jwt (token hmac claims key ++ [0])) (jwt + 44)
        ((patched claims).length + 1) :=
      (Mapped.behind (hplaced.room.mono (by omega))).write _ _
    rw [hstop]
    exact ⟨_, _, decodePayload_eq none hold hlen hroom (.inl (Nat.le_refl _)),
      holds_write _ _ _⟩
  · rw [hstop]
    exact ⟨_, decodePayload_eq (some dst) hold hlen hdst
      (by simp only [Option.getD_some]; omega), holds_write _ _ _⟩

/-- A memory that is mapped everywhere, with the string literal at an address. -/
private def source (p : ℕ) : Memory := write (fun _ => some 1) p headerJson

private theorem mapped_source (p q n : ℕ) : Mapped (source p) q n :=
  Mapped.write (fun _ _ => rfl) _ _

private theorem placed_source (size : ℕ) : Placed (source size) 0 size size :=
  ⟨holds_write _ _ _, mapped_source _ _ _, .inr (Nat.zero_add _).le⟩

private theorem payload_ne_patched_nil {p : ℕ}
    (h : Holds (write m p (patched [] ++ [0])) p (payload [] ++ [0])) : False := by
  have hspace : write m p (patched [] ++ [0]) p = some (chr ' ') :=
    (holds_write m p [chr ' ', chr '}', 0]).1
  have hbrace : write m p (patched [] ++ [0]) p = some (chr '{') := by
    change Holds _ p (chr '{' :: [chr ' ', chr ' ', chr '}', 0]) at h
    exact h.1
  exact absurd (hspace.symm.trans hbrace) (by decide)

/-- Without a claim, the two bytes that are replaced are the start of the claims. -/
theorem not_faithful_nil (hmac : List UInt8 → List UInt8 → Digest) (key : List UInt8) :
    ¬ Faithful hmac [] key := by
  intro h
  have hplaced := placed_source ((token hmac [] key).length + 1)
  have hlen : (patched []).length < 2 ^ 62 := by decide
  obtain ⟨m', stop, hbuild, -, ⟨n, p, hdecode, hold⟩, -⟩ := h _ _ _ hplaced
  rw [build_eq hplaced hlen] at hbuild
  obtain ⟨rfl, rfl⟩ := Prod.mk.inj (Option.some.inj hbuild)
  rw [Nat.add_sub_cancel_left, decodePayload_eq none
    (holds_append.mp (holds_write _ _ _)).1 hlen ((mapped_source _ _ _).write _ _)
    (.inl (Nat.le_refl _))] at hdecode
  obtain ⟨rfl, hp⟩ := Prod.mk.inj (Option.some.inj hdecode)
  obtain rfl := Option.some.inj hp
  exact payload_ne_patched_nil hold

theorem append_above {m' : Memory} {p q dst : ℕ} (h : append m dst s = some (m', p)) :
    p = dst + s.length ∧ (p ≤ q → m' q = m q) := by
  obtain ⟨m₁, hwrite, heq⟩ := Option.map_eq_some_iff.mp h
  obtain ⟨rfl, rfl⟩ := Prod.mk.inj heq
  exact ⟨rfl, writeBytes_above hwrite⟩

/-- What follows the claims ends shortly behind them. -/
theorem appendSignature_above {m' : Memory} {stop : ℕ}
    (hroom : Mapped m jwt (header ++ opened claims).length)
    (h : appendSignature hmac (write m jwt (header ++ opened claims))
      (jwt + (header ++ opened claims).length) jwt key = some (m', stop)) :
    stop ≤ jwt + Base64.base64Len (patched claims).length + 89 ∧
      ∀ q, jwt + 44 + (patched claims).length ≤ q →
        jwt + Base64.base64Len (patched claims).length + 100 ≤ q → m' q = m q := by
  have hheader := length_header
  have hsize : jwt + (header ++ patched claims).length - (jwt + 44) = (patched claims).length := by
    rw [List.length_append, hheader]
    omega
  rw [appendSignature] at h
  simp only [Option.bind_eq_bind] at h
  rw [append_patched hroom, Option.bind_some] at h
  simp only [hsize, Option.bind_eq_some_iff, Option.some.injEq, Prod.mk.injEq] at h
  obtain ⟨⟨m₁, p₁⟩, hencode, ⟨m₂, p₂⟩, happend, signed, -, m₃, hdigest, ⟨m₄, p₄⟩, hencode', m₅,
    hstore, rfl, rfl⟩ := h
  obtain ⟨hp₁, hkeep₁⟩ := Base64Url.encode_above hencode
  obtain ⟨hp₄, hkeep₄⟩ := Base64Url.encode_above hencode'
  obtain ⟨hp₂, -⟩ := append_above (q := 0) happend
  have h32 : Base64.base64Len 32 = 44 := by
    rw [Base64.base64Len_eq]
    rfl
  have hdot : (text ".").length = 1 := rfl
  have hlen := (hmac key signed).2
  have htext : (header ++ patched claims).length = 44 + (patched claims).length := by
    rw [List.length_append, hheader]
  simp only at hp₄
  refine ⟨by omega, fun q hq hq' => ?_⟩
  calc m₅ q
      = m₄ q := store_above hstore (by simp only; omega)
    _ = m₃ q := hkeep₄ q (by simp only; omega)
    _ = m₂ q := writeBytes_above hdigest (by simp only; omega)
    _ = m₁ q := (append_above happend).2 (by omega)
    _ = write m jwt (header ++ patched claims) q := hkeep₁ q (by omega)
    _ = m q := write_apply_of_ge (by omega)

theorem decodePayload_above {m' : Memory} {dst p len : ℕ}
    (h : decodePayload m (some dst) jwt len = some (m', some p)) :
    ∀ q, dst + len + 3 ≤ q → m' q = m q := by
  rw [decodePayload] at h
  simp only [Option.bind_eq_bind, Option.bind_eq_some_iff] at h
  obtain ⟨first, hfirst, h⟩ := h
  cases first with
  | none => simp at h
  | some headerEnd =>
    simp only [Option.bind_eq_some_iff] at h
    obtain ⟨second, hsecond, h⟩ := h
    cases second with
    | none => simp at h
    | some payloadEnd =>
      simp only [Option.getD_some, Option.bind_eq_some_iff, Option.some.injEq,
        Prod.mk.injEq] at h
      obtain ⟨⟨m₁, p₁⟩, hdecode, m₂, hstore, rfl, -⟩ := h
      obtain ⟨l, -, -, -, hlen, rfl⟩ := memchr_some hsecond
      obtain ⟨hp, hkeep⟩ := Base64Url.decode_above hdecode
      intro q hq
      exact (store_above hstore (by simp only; omega)).trans (hkeep q (by omega))

/-- When the size of the encoded claims wraps around, the token is too short for them. -/
theorem not_faithful_wrapped (hclaims : claims ≠ []) (hlen : 2 ^ 62 ≤ (payload claims).length) :
    ¬ Faithful hmac claims key := by
  intro h
  have hpatched := patched_eq hclaims
  rw [← hpatched] at hlen
  have htoken := length_token hmac claims key
  have htext := length_text_patched claims
  have hopened := length_patched claims
  have hwrapped := Base64.base64Len_eq (patched claims).length
  obtain ⟨size, hsize⟩ : ∃ size, size = (token hmac claims key).length + 1 := ⟨_, rfl⟩
  have hplaced := placed_source size
  have hroom : Mapped (source size) 0 (header ++ opened claims).length := mapped_source _ _ _
  obtain ⟨m', stop, hbuild, -, -, hother⟩ := h _ _ _ (hsize ▸ hplaced)
  have hsignature : appendSignature hmac (write (source size) 0 (header ++ opened claims))
      (0 + (header ++ opened claims).length) 0 key = some (m', stop) := by
    rw [← hbuild, build]
    change _ = (appendHeader (source _) 0 _).bind _
    rw [appendHeader_eq (hsize ▸ hplaced) (by omega), Option.bind_some]
    change _ = Option.bind (List.foldlM _ (write (source _) 0 (header ++ text "\x7b "), _) claims) _
    rw [appendClaims_eq (mapped_source _ _ _), Option.bind_some, ← hsize]
    change _ = appendSignature hmac (write _ 0 ((header ++ text "\x7b ") ++ _)) _ 0 key
    rw [List.append_assoc]
    rfl
  obtain ⟨hstop, hkeep⟩ := appendSignature_above hroom hsignature
  -- the buffer for the claims is far behind the token
  obtain ⟨dst, hdst⟩ : ∃ dst, dst = size + stop + (patched claims).length + 100 := ⟨_, rfl⟩
  have hfar (i : ℕ) : m' (dst + i) = some 1 := by
    rw [hkeep _ (by omega) (by omega), source, write_apply_of_ge]
    rw [length_headerJson]
    omega
  obtain ⟨n, hdecode, hold⟩ := hother dst (fun i _ => by rw [hfar]; rfl) (.inr (by omega))
  rw [← hpatched] at hold
  have hzero : n (dst + (patched claims).length) = some 0 := (holds_append.mp hold).2.1
  have hshort : stop + 3 ≤ (patched claims).length := by
    have hmod := Nat.mod_add_div (patched claims).length (2 ^ 62)
    have hdiv : 1 ≤ (patched claims).length / 2 ^ 62 := Nat.div_pos hlen (by omega)
    omega
  rw [decodePayload_above hdecode (dst + (patched claims).length) (by omega), hfar] at hzero
  exact absurd hzero (by decide)

/-- A token is right if and only if it has a claim, and the claims are not so long that the size of
their encoding wraps around. -/
theorem faithful_iff (hmac : List UInt8 → List UInt8 → Digest)
    (claims : List (List UInt8 × Arg)) (key : List UInt8) :
    Faithful hmac claims key ↔ claims ≠ [] ∧ (payload claims).length < 2 ^ 62 := by
  constructor
  · intro h
    have hclaims : claims ≠ [] := by
      rintro rfl
      exact not_faithful_nil hmac key h
    exact ⟨hclaims, Nat.lt_of_not_le fun hlen => not_faithful_wrapped hclaims hlen h⟩
  · rintro ⟨hclaims, hlen⟩
    exact faithful_of_ne_nil hclaims hlen

/-- A token without claims, for a code that does not depend on the text. -/
theorem not_faithful_empty : ¬ Faithful (fun _ _ => ⟨List.replicate 32 7, rfl⟩) [] [] :=
  not_faithful_nil _ _

end Libuo.Jwt
