import Libuo.CStrings

/-!
# JSON text

The encoders write the text of one value; the decoder reads the text of a string.
The scanner finds the end of a value, or the value of a member, without building
a tree: it jumps from one bracket, quote or comma to the next with `strchr`.

The functions have the names of the source without `uo_json_`.
-/

namespace Libuo.Json
open CStrings

def hexDigit (n : ℕ) : UInt8 :=
  if n < 10 then chr '0' + UInt8.ofNat n else chr 'A' + UInt8.ofNat (n - 10)

/-- What `sprintf("\\u%04X", c)` writes for one byte. -/
def sprintfUnicode (c : UInt8) : List UInt8 :=
  [chr '\\', chr 'u', chr '0', chr '0', hexDigit (c.toNat / 16), hexDigit (c.toNat % 16)]

def encodeNull : List UInt8 := ['n', 'u', 'l', 'l'].map chr

def encodeByte (c : UInt8) : List UInt8 :=
  if iscntrl c then sprintfUnicode c
  else if c = chr '"' || c = chr '\\' then [chr '\\', c]
  else [c]

/-- `uo_json_encode_utf8`; the source may be `NULL`. -/
def encodeUtf8 : Option (List UInt8) → List UInt8
  | none => encodeNull
  | some src => chr '"' :: src.flatMap encodeByte ++ [chr '"']

def cstring (s : List UInt8) : List UInt8 := s.takeWhile (· ≠ 0)

def encodeUtf8Cstring (s : Option (List UInt8)) : List UInt8 := encodeUtf8 (s.map cstring)

def encodeUint64 (n : UInt64) : List UInt8 := (Nat.toDigits 10 n.toNat).map chr

def encodeInt64 (n : Int64) : List UInt8 :=
  if n.toInt < 0 then chr '-' :: (Nat.toDigits 10 n.toInt.natAbs).map chr
  else (Nat.toDigits 10 n.toInt.natAbs).map chr

def encodeBool (b : Bool) : List UInt8 :=
  (if b then ['t', 'r', 'u', 'e'] else ['f', 'a', 'l', 's', 'e']).map chr

/-- The types of value that `uo_json_encode` distinguishes, without `double`. -/
inductive Arg where
  | bool (b : Bool)
  | utf8 (s : Option (List UInt8))
  | int64 (n : Int64)
  | uint64 (n : UInt64)
  deriving DecidableEq

def encode : Arg → List UInt8
  | .bool b => encodeBool b
  | .utf8 s => encodeUtf8Cstring s
  | .int64 n => encodeInt64 n
  | .uint64 n => encodeUint64 n

def encodeKvp (key : Option (List UInt8)) (val : Arg) : List UInt8 :=
  encodeUtf8Cstring key ++ [chr ':', chr ' '] ++ encode val

/-- `*dst++ = c`; the destination may be `NULL`. -/
def putc (dst : Option (List UInt8)) (c : UInt8) : Scan (Option (List UInt8)) :=
  match dst with
  | some d => .ok (some (d ++ [c]))
  | none => .error .fault

def utf8Append (dst : Option (List UInt8)) (codepoint : ℕ) : Scan (Option (List UInt8)) :=
  if codepoint < 0x80 then
    putc dst (UInt8.ofNat (codepoint &&& 0x7F))
  else if codepoint < 0x800 then do
    let dst ← putc dst (UInt8.ofNat (0xC0 ||| codepoint >>> 6))
    putc dst (UInt8.ofNat (0x80 ||| codepoint &&& 0x3F))
  else if codepoint < 0x10000 then do
    let dst ← putc dst (UInt8.ofNat (0xE0 ||| codepoint >>> 12))
    let dst ← putc dst (UInt8.ofNat (0x80 ||| codepoint >>> 6 &&& 0x3F))
    putc dst (UInt8.ofNat (0x80 ||| codepoint &&& 0x3F))
  else if codepoint < 0x110000 then do
    let dst ← putc dst (UInt8.ofNat (0xF0 ||| codepoint >>> 18))
    let dst ← putc dst (UInt8.ofNat (0x80 ||| codepoint >>> 12 &&& 0x3F))
    let dst ← putc dst (UInt8.ofNat (0x80 ||| codepoint >>> 6 &&& 0x3F))
    putc dst (UInt8.ofNat (0x80 ||| codepoint &&& 0x3F))
  else pure none

def hexValue (c : UInt8) : ℕ :=
  if isdigit c then (c - chr '0').toNat else (tolower c - chr 'a').toNat + 10

/-- At most `width` hexadecimal digits: their value and their number. -/
def scanDigits (s : List UInt8) : ℕ → ℕ → ℕ → ℕ → Scan (ℕ × ℕ)
  | 0, _, acc, count => pure (acc, count)
  | width + 1, p, acc, count => do
    let c ← load s p
    if isxdigit c then scanDigits s width (p + 1) (acc * 16 + hexValue c) (count + 1)
    else pure (acc, count)

/-- The number of an input item of `%x` after its sign; `none` is a matching failure. -/
def scanUnsigned (s : List UInt8) (width p : ℕ) : Scan (Option ℕ) := do
  let isPrefixed ←
    if width < 2 then pure false
    else do
      if (← load s p) = chr '0' then pure (tolower (← load s (p + 1)) = chr 'x') else pure false
  let (value, count) ←
    if isPrefixed then scanDigits s (width - 2) (p + 2) 0 0 else scanDigits s width p 0 0
  pure (if count = 0 then none else some value)

/-- `sscanf(src, "%04x", &codepoint)`: white space, then at most four characters of
sign, prefix and digits. -/
def sscanfHex (s : List UInt8) (src : ℕ) : Scan (Option ℕ) := do
  let p ← skipWhile isspace s src
  let c ← load s p
  if c = chr '-' then
    return (← scanUnsigned s 3 (p + 1)).map fun n => (2 ^ 32 - n) % 2 ^ 32
  else if c = chr '+' then scanUnsigned s 3 (p + 1)
  else scanUnsigned s 4 p

/-- The byte that a backslash and one character stand for. -/
def shortEscape (c : UInt8) : Option UInt8 :=
  if c = chr '"' then some (chr '"')
  else if c = chr '\\' then some (chr '\\')
  else if c = chr '/' then some (chr '/')
  else if c = chr 'b' then some 8
  else if c = chr 'f' then some 12
  else if c = chr 'n' then some 10
  else if c = chr 'r' then some 13
  else if c = chr 't' then some 9
  else none

def decodeLoop (s : List UInt8) (jsonEnd : ℕ) :
    ℕ → ℕ → Option (List UInt8) → Scan (Option (List UInt8))
  | 0, _, _ => .error .fuel
  | fuel + 1, src, dst =>
    if src < jsonEnd then do
      let c ← load s src
      if c = chr '\\' then
        if src + 1 ≥ jsonEnd then pure none
        else do
          let e ← load s (src + 1)
          match shortEscape e with
          | some b => do decodeLoop s jsonEnd fuel (src + 2) (← putc dst b)
          | none =>
            if e = chr 'u' then
              if src + 2 + 4 > jsonEnd then pure none
              else do
                match ← sscanfHex s (src + 2) with
                | none => pure none
                | some codepoint => do
                  decodeLoop s jsonEnd fuel (src + 6) (← utf8Append dst codepoint)
            else pure none
      else do decodeLoop s jsonEnd fuel (src + 1) (← putc dst c)
    else pure dst

/-- `uo_json_decode_utf8`: the bytes written to the destination, or `NULL`. -/
def decodeUtf8 (s : List UInt8) (src srcLen : ℕ) : Scan (Option (List UInt8)) := do
  if srcLen < 2 then pure none
  else if (← load s src) ≠ chr '"' then pure none
  else
    let jsonEnd := src + srcLen - 1
    if (← load s jsonEnd) ≠ chr '"' then pure none
    else decodeLoop s jsonEnd srcLen (src + 1) (some [])

def escapedLoop (s : List UInt8) : ℕ → Bool → Scan Bool
  | 0, _ => .error .fault
  | p + 1, isEscaped => do
    if (← load s p) = chr '\\' then escapedLoop s p (!isEscaped) else pure isEscaped

def isCharEscaped (s : List UInt8) (p : ℕ) : Scan Bool := escapedLoop s p false

def findNumEnd (s : List UInt8) (p : ℕ) : Scan (Option ℕ) := do
  let p := if (← load s p) = chr '-' then p + 1 else p
  let p ← skipWhile isdigit s p
  if (← load s p) = 0 then return some p
  let p := if (← load s p) = chr '.' then p + 1 else p
  numExp (← skipWhile isdigit s p)
where
  numExp (p : ℕ) : Scan (Option ℕ) := do
    if tolower (← load s p) = chr 'e' then
      let sign ← load s (p + 1)
      if sign ≠ chr '+' ∧ sign ≠ chr '-' then return none
      numStop (← skipWhile isdigit s (p + 2))
    else numStop p
  numStop (p : ℕ) : Scan (Option ℕ) := do
    let c ← load s p
    pure (if c = 0 ∨ c = chr ',' ∨ isspace c then some p else none)

/-- The first quote from `p` on that is not escaped. -/
def findQuote (s : List UInt8) : ℕ → ℕ → Scan (Option ℕ)
  | 0, _ => .error .fuel
  | fuel + 1, p => do
    match ← strchr s p (chr '"') with
    | none => pure none
    | some quote =>
      if ← isCharEscaped s quote then findQuote s fuel (quote + 1) else pure (some quote)

/-- `uo_json_find_str_end`; the text has fewer quotes than the fuel. -/
def findStrEnd (s : List UInt8) (p : ℕ) : Scan (Option ℕ) := do
  return (← findQuote s (s.length + 1) (p + 1)).map (· + 1)

def objLoop (s : List UInt8) (find : ℕ → Scan (Option ℕ)) : ℕ → ℕ → Scan (Option ℕ)
  | 0, _ => .error .fuel
  | fuel + 1, p => do
    if (← load s p) = 0 then return none
    let some rightBrace ← strchr s p (chr '}') | return none
    let some key ← strchr s p (chr '"') | return some (rightBrace + 1)
    if rightBrace < key then return some (rightBrace + 1)
    let some keyEnd ← findStrEnd s key | return none
    let some p ← strchr s keyEnd (chr ':') | return none
    let p ← skipWhile isspace s (p + 1)
    let some p ← find p | return none
    let some rightBrace ← strchr s (p + 1) (chr '}') | return none
    let some p ← strchr s p (chr ',') | return some (rightBrace + 1)
    objLoop s find fuel p

def arrLoop (s : List UInt8) (find : ℕ → Scan (Option ℕ)) : ℕ → ℕ → Scan (Option ℕ)
  | 0, _ => .error .fuel
  | fuel + 1, p => do
    if (← load s p) = 0 then return none
    let p ← skipWhile isspace s p
    let some p ← find p | return none
    let some rightBracket ← strchr s (p + 1) (chr ']') | return none
    let some p ← strchr s p (chr ',') | return some (rightBracket + 1)
    arrLoop s find fuel p

def findArrEnd (s : List UInt8) (find : ℕ → Scan (Option ℕ)) (fuel p : ℕ) : Scan (Option ℕ) := do
  let some rightBracket ← strchr s (p + 1) (chr ']') | return none
  if p + 1 = rightBracket then return some (rightBracket + 1)
  arrLoop s find fuel (p + 1)

/-- `uo_json_find_end`. The fuel bounds the nesting and the number of turns of each loop. -/
def findEnd (s : List UInt8) : ℕ → ℕ → Scan (Option ℕ)
  | 0, _ => .error .fuel
  | fuel + 1, p => do
    let p ← skipWhile isspace s p
    let c ← load s p
    if c = 0 then pure none
    else if c = chr '{' then objLoop s (findEnd s fuel) fuel (p + 1)
    else if c = chr '[' then findArrEnd s (findEnd s fuel) fuel p
    else if c = chr '"' then findStrEnd s p
    else if c = chr 'n' then pure (some (p + 4))
    else if c = chr 't' then pure (some (p + 4))
    else if c = chr 'f' then pure (some (p + 5))
    else findNumEnd s p

/-- The call returns `r`, with enough fuel. -/
def FindsEnd (s : List UInt8) (p : ℕ) (r : Option ℕ) : Prop := ∃ fuel, findEnd s fuel p = .ok r

def valueLoop (s name : List UInt8) : ℕ → ℕ → Scan (Option ℕ)
  | 0, _ => .error .fuel
  | fuel + 1, p => do
    if (← load s p) = 0 then return none
    let some rightBrace ← strchr s p (chr '}') | return none
    let some key ← strchr s p (chr '"') | return none
    if rightBrace < key then return none
    let some keyEnd ← findStrEnd s key | return none
    let isMatch := name.length + 2 = keyEnd - key ∧ (s.drop (key + 1)).take name.length = name
    let some p ← strchr s keyEnd (chr ':') | return none
    let p ← skipWhile isspace s (p + 1)
    if isMatch then return some p
    let some p ← findEnd s fuel p | return none
    let some _ ← strchr s (p + 1) (chr '}') | return none
    let some p ← strchr s p (chr ',') | return none
    valueLoop s name fuel p

/-- `uo_json_find_value`; `name` is the text of the name without its NUL. -/
def findValue (s name : List UInt8) (fuel p : ℕ) : Scan (Option ℕ) := do
  let p ← skipWhile isspace s p
  if (← load s p) ≠ chr '{' then return none
  valueLoop s name fuel p

end Libuo.Json
