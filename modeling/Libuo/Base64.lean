import Libuo.CMemory
import Libuo.CStrings
import Libuo.SextetCodec

/-!
# Base64 encoding and decoding in memory

The encoder writes downwards from the computed end of the text; the decoder reads
upwards and decides whether to take another full block by looking ahead. Both
work on one memory, so that a destination may also be the source. Sizes are
computed in 64-bit unsigned arithmetic.
-/

namespace Libuo.Base64
open CMemory CStrings SextetCodec

def btoaTable : List UInt8 := [
  'A', 'B', 'C', 'D', 'E', 'F', 'G', 'H', 'I', 'J', 'K', 'L', 'M', 'N', 'O', 'P',
  'Q', 'R', 'S', 'T', 'U', 'V', 'W', 'X', 'Y', 'Z', 'a', 'b', 'c', 'd', 'e', 'f',
  'g', 'h', 'i', 'j', 'k', 'l', 'm', 'n', 'o', 'p', 'q', 'r', 's', 't', 'u', 'v',
  'w', 'x', 'y', 'z', '0', '1', '2', '3', '4', '5', '6', '7', '8', '9', '+', '/'].map chr

/-- The rows `0x20` to `0x70` of the decoding table; all other entries are `0xFF`. -/
def atobRows : List UInt8 := [
  0xFF,0xFF,0xFF,0xFF,0xFF,0xFF,0xFF,0xFF,0xFF,0xFF,0xFF,0x3E,0xFF,0xFF,0xFF,0x3F,
  0x34,0x35,0x36,0x37,0x38,0x39,0x3A,0x3B,0x3C,0x3D,0xFF,0xFF,0xFF,0x40,0xFF,0xFF,
  0xFF,0x00,0x01,0x02,0x03,0x04,0x05,0x06,0x07,0x08,0x09,0x0A,0x0B,0x0C,0x0D,0x0E,
  0x0F,0x10,0x11,0x12,0x13,0x14,0x15,0x16,0x17,0x18,0x19,0xFF,0xFF,0xFF,0xFF,0xFF,
  0xFF,0x1A,0x1B,0x1C,0x1D,0x1E,0x1F,0x20,0x21,0x22,0x23,0x24,0x25,0x26,0x27,0x28,
  0x29,0x2A,0x2B,0x2C,0x2D,0x2E,0x2F,0x30,0x31,0x32,0x33,0xFF,0xFF,0xFF,0xFF,0xFF]

def atobTable : List UInt8 :=
  List.replicate 0x20 0xFF ++ atobRows ++ List.replicate 0x80 0xFF

def btoa (s : UInt8) : UInt8 := btoaTable.getD s.toNat 0
def atob (c : UInt8) : UInt8 := atobTable.getD c.toNat 0

/-- `(len * 4 / 3 + 3) & ~3`, the length of the padded text. -/
def base64Len (len : ℕ) : ℕ := ((UInt64.ofNat len * 4 / 3 + 3) &&& ~~~3).toNat

/-- `while ((char *)a > dst)`: three bytes below `b` become four characters below `a`. -/
def encodeLoop (btoa : UInt8 → UInt8) (dst : ℕ) : Memory → ℕ → ℕ → Option Memory
  | m, a + 4, b + 3 =>
    if a + 4 > dst then do
      let b2 ← m (b + 2)
      let b1 ← m (b + 1)
      let b0 ← m b
      let m ← store m (a + 3) (btoa (b2 &&& 0x3F))
      let m ← store m (a + 2) (btoa ((b1 &&& 0x0F) <<< 2 ||| b2 >>> 6))
      let m ← store m (a + 1) (btoa ((b0 &&& 0x03) <<< 4 ||| b1 >>> 4))
      let m ← store m a (btoa (b0 >>> 2))
      encodeLoop btoa dst m a b
    else some m
  -- too close to address zero for another block
  | m, a, _ => if a > dst then none else some m

/-- `switch (src_len % 3)`: the last one or two bytes, and the two pointers after them. -/
def encodeTail (m : Memory) (a b len : ℕ) : Option (Memory × ℕ × ℕ) :=
  match len % 3, a, b with
  | 1, a + 4, b + 1 => do
    let b0 ← m b
    let m ← store m (a + 3) (chr '=')
    let m ← store m (a + 2) (chr '=')
    let m ← store m (a + 1) (btoa ((b0 &&& 0x03) <<< 4))
    let m ← store m a (btoa (b0 >>> 2))
    some (m, a, b)
  | 2, a + 4, b + 2 => do
    let b1 ← m (b + 1)
    let b0 ← m b
    let m ← store m (a + 3) (chr '=')
    let m ← store m (a + 2) (btoa ((b1 &&& 0x0F) <<< 2))
    let m ← store m (a + 1) (btoa ((b0 &&& 0x03) <<< 4 ||| b1 >>> 4))
    let m ← store m a (btoa (b0 >>> 2))
    some (m, a, b)
  | 0, a, b => some (m, a, b)
  | _, _, _ => none

/-- `uo_base64_encode`: the memory afterwards and the end of the text. -/
def encode (m : Memory) (dst src len : ℕ) : Option (Memory × ℕ) := do
  let stop := dst + base64Len len
  let (m, a, b) ← encodeTail m stop (src + len) len
  let m ← encodeLoop btoa dst m a b
  some (m, stop)

/-- The loop condition `a + 4 < end || a[2] != '=' && a[3] != '='`, which reads
the two characters only when the text has no further full block. -/
def moreBlocks (m : Memory) (a stop : ℕ) : Option Bool :=
  if a + 4 < stop then some true
  else do
    let c2 ← m (a + 2)
    if c2 != chr '=' then do
      let c3 ← m (a + 3)
      some (c3 != chr '=')
    else some false

/-- The loop body of the decoders, with any table: four characters from `a` become three bytes from
`b`. -/
def decodeQuad (atob : UInt8 → UInt8) (m : Memory) (a b : ℕ) : Option Memory := do
  let a0 := atob (← m a)
  let a1 := atob (← m (a + 1))
  let a2 := atob (← m (a + 2))
  let a3 := atob (← m (a + 3))
  let m ← store m b (a0 <<< 2 ||| a1 >>> 4)
  let m ← store m (b + 1) ((a1 &&& 0x0F) <<< 4 ||| a2 >>> 2)
  store m (b + 2) ((a2 &&& 0x03) <<< 6 ||| a3)

def decodeBlock (m : Memory) (a b : ℕ) : Option Memory := decodeQuad atob m a b

/-- The main loop of the decoder, for at most `fuel` tests of its condition. -/
def decodeLoop (stop : ℕ) : ℕ → Memory → ℕ → ℕ → Option (Memory × ℕ × ℕ)
  | 0, _, _, _ => none
  | fuel + 1, m, a, b => do
    let more ← moreBlocks m a stop
    if more then do
      let m ← decodeBlock m a b
      decodeLoop stop fuel m (a + 4) (b + 3)
    else some (m, a, b)

/-- The last block, taken when characters are left before the end. -/
def decodeTail (m : Memory) (a b stop : ℕ) : Option (Memory × ℕ) :=
  if a < stop then do
    let a0 := atob (← m a)
    let a1 := atob (← m (a + 1))
    let a2 := atob (← m (a + 2))
    let m ← store m b (a0 <<< 2 ||| a1 >>> 4)
    if a2 != 0x40 then do
      let m ← store m (b + 1) ((a1 &&& 0x0F) <<< 4 ||| a2 >>> 2)
      some (m, b + 2)
    else some (m, b + 1)
  else some (m, b)

/-- `uo_base64_decode`: the memory afterwards and the end of the bytes. -/
def decode (fuel : ℕ) (m : Memory) (dst src len : ℕ) : Option (Memory × ℕ) := do
  let (m, a, b) ← decodeLoop (src + len) fuel m src dst
  decodeTail m a b (src + len)

theorem forall_sextet {P : UInt8 → Prop} (h : ∀ n < 64, P (UInt8.ofNat n)) :
    ∀ s < 64, P s := by
  intro s hs
  have hp := h s.toNat (UInt8.lt_iff_toNat_lt.mp hs)
  rwa [UInt8.ofNat_toNat] at hp

/-- The two tables are inverse on sextets, and no sextet is named by the padding. -/
def alphabet : Alphabet where
  btoa := btoa
  atob := atob
  pad := chr '='
  atob_btoa := forall_sextet (by decide +kernel)
  btoa_ne_pad := forall_sextet (by decide +kernel)

theorem atob_pad : atob (chr '=') = 0x40 := by decide

theorem atob_btoa_ne_pad {s : UInt8} (h : s < 64) : atob (btoa s) ≠ 0x40 := by
  rw [show atob (btoa s) = s from alphabet.atob_btoa s h]
  rintro rfl
  exact absurd h (by decide)

end Libuo.Base64
