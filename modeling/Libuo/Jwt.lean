import Libuo.Base64Url
import Libuo.CText
import Libuo.Json

/-!
# JSON web tokens

Tokens are built in a buffer: the header, the claims, and a signature for which the
claims are encoded in their place. The message authentication code is a function of a
key and a text.
-/

namespace Libuo.Jwt
open CMemory CStrings CText Json

abbrev Digest := { l : List UInt8 // l.length = 32 }

variable (hmac : List UInt8 → List UInt8 → Digest)

def headerJson : List UInt8 := text "\x7b \"alg\": \"HS256\", \"typ\": \"JWT\" \x7d"

/-- `uo_mem_append_str_literal`, and the other functions that append a text: the memory, and the
end of the text. -/
def append (m : Memory) (dst : ℕ) (s : List UInt8) : Option (Memory × ℕ) :=
  (writeBytes m dst s).map fun m => (m, dst + s.length)

/-- `uo_jwt_hs256_append_header`. The string literal is at the address `literal`. -/
def appendHeader (m : Memory) (dst literal : ℕ) : Option (Memory × ℕ) := do
  let (m, p) ← Base64Url.encode m dst literal 32
  append m p (text ".\x7b ")

/-- `uo_jwt_append_claim`. A NUL that `sprintf` leaves is overwritten by what follows. -/
def appendClaim (m : Memory) (dst : ℕ) (claim : List UInt8 × Arg) : Option (Memory × ℕ) := do
  let (m, p) ← append m dst (encodeKvp (some claim.1) claim.2)
  append m p (text ", ")

def appendSignature (m : Memory) (dst jwtHeader : ℕ) (key : List UInt8) :
    Option (Memory × ℕ) := do
  let (m, p) ← append m (dst - 2) (text " \x7d")
  let jwtPayload := jwtHeader + 44
  let (m, p) ← Base64Url.encode m jwtPayload jwtPayload (p - jwtPayload)
  let (m, p) ← append m p (text ".")
  let signed ← readBytes m jwtHeader (p - 1 - jwtHeader)
  let m ← writeBytes m p (hmac key signed).1
  let (m, p) ← Base64Url.encode m p p 32
  let m ← store m p 0
  some (m, p)

def hs256 : Memory := fun p => if p < 43 then some 0 else none

/-- `uo_jwt_verify`. The second length is `jwt_len - (jwt - payload)`. -/
def verify (m : Memory) (jwt jwtLen : ℕ) (key : List UInt8) : Option Bool := do
  match ← memchr m (chr '.') jwt jwtLen with
  | none => some false
  | some headerEnd =>
    let payload := headerEnd + 1
    match ← memchr m (chr '.') payload (jwtLen + (payload - jwt)) with
    | none => some false
    | some payloadEnd =>
      let signature := payloadEnd + 1
      if jwt + jwtLen ≠ signature + 43 then some false
      else do
        let signed ← readBytes m jwt (payloadEnd - jwt)
        let h ← writeBytes hs256 0 (hmac key signed).1
        let (h, _) ← Base64Url.encode h 0 0 32
        let s ← readBytes m signature 43
        let t ← readBytes h 0 43
        some (s == t)

/-- `uo_jwt_decode_payload`: the memory, and the pointer that is returned. `NULL` is `none`. -/
def decodePayload (m : Memory) (dst : Option ℕ) (jwt jwtLen : ℕ) :
    Option (Memory × Option ℕ) := do
  match ← memchr m (chr '.') jwt ((jwtLen + (2 ^ 64 - 1)) % 2 ^ 64) with
  | none => some (m, none)
  | some headerEnd =>
    let jwtPayload := headerEnd + 1
    match ← memchr m (chr '.') jwtPayload (jwtLen - (jwtPayload - jwt)) with
    | none => some (m, none)
    | some jwtPayloadEnd =>
      let dst := dst.getD jwtPayload
      let (m, p) ← Base64Url.decode m dst jwtPayload (jwtPayloadEnd - jwtPayload)
      let m ← store m p 0
      some (m, some dst)

/-- A token with some claims: the header, the claims one after the other, and the signature. -/
def build (m : Memory) (jwt literal : ℕ) (claims : List (List UInt8 × Arg)) (key : List UInt8) :
    Option (Memory × ℕ) := do
  let (m, p) ← appendHeader m jwt literal
  let (m, p) ← claims.foldlM (fun r claim => appendClaim r.1 r.2 claim) (m, p)
  appendSignature hmac m p jwt key

end Libuo.Jwt
