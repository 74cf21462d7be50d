import Libuo.HttpHeaders
import Libuo.HttpParseBlocks

/-!
# Which bytes are read and written when a message is parsed

While a message is being received, its start line and its headers are parsed from whatever is
there. The headers are cut into names and values; a name that nothing ends is followed beyond the
copy of the headers. A line of a response that begins with a space is read in front of its copy.
-/

namespace Libuo.HttpParseSafety
open CStrings CText HttpMsg HttpHeaders
open HttpParseBlocks (Tokens strtok_tokens scan parseStartLine_eq parseHeaders_eq)

/-- Where a header text is being read: at delimiters in front of a name, in a name that these
delimiters end, at white space in front of a value, or in a value. -/
inductive Place where
  | front (delims : List UInt8)
  | name (delims : List UInt8)
  | space
  | value
  deriving DecidableEq

namespace Place

/-- The place behind one more character. -/
def next : Place → UInt8 → Place
  | front delims, c => if c ∈ delims then front delims else name delims
  | name delims, c => if c ∈ delims then space else name delims
  | space, c => if isspace c then space else value
  | value, c => if c ∈ text "\r" then front (text "\n:") else value

def isName : Place → Bool
  | name _ => true
  | _ => false

end Place

/-- The text ends in a name. The first name ends with a colon, the others with a colon or a line
feed; a value ends with a carriage return. -/
def NameAtEnd (t : List UInt8) : Prop := (t.foldl Place.next (.front (text ":"))).isName = true

instance (t : List UInt8) : Decidable (NameAtEnd t) :=
  inferInstanceAs (Decidable ((t.foldl Place.next (.front (text ":"))).isName = true))

variable {t l delims : List UInt8} {q : Place} {fuel : ℕ}
  {headers : List (List UInt8 × Option (List UInt8))}

theorem foldl_same (h : ∀ c ∈ l, q.next c = q) : l.foldl Place.next q = q := by
  induction l with
  | nil => rfl
  | cons c l ih => rw [List.foldl_cons, h c (.head _), ih fun d hd => h d (.tail _ hd)]

theorem foldl_front (h : ∀ c ∈ l, c ∈ delims) :
    l.foldl Place.next (.front delims) = .front delims :=
  foldl_same fun c hc => if_pos (h c hc)

theorem foldl_name (h : ∀ c ∈ l, c ∉ delims) : l.foldl Place.next (.name delims) = .name delims :=
  foldl_same fun c hc => if_neg (h c hc)

theorem foldl_token (hne : l ≠ []) (h : ∀ c ∈ l, c ∉ delims) :
    l.foldl Place.next (.front delims) = .name delims := by
  obtain ⟨c, l, rfl⟩ := List.exists_cons_of_ne_nil hne
  rw [List.foldl_cons, Place.next, if_neg (h c (.head _))]
  exact foldl_name fun d hd => h d (.tail _ hd)

theorem foldl_value (hne : t ≠ []) (hfirst : ∀ c ∈ t.head?, c ∉ text "\r") :
    t.foldl Place.next .value =
      match strtok (text "\r") t with
      | none => .space
      | some (_, none) => .value
      | some (_, some rest) => rest.foldl Place.next (.front (text "\n:")) := by
  have hvalue : ∀ tok : List UInt8, (∀ c ∈ tok, c ∉ text "\r") →
      tok.foldl Place.next .value = .value :=
    fun tok htok => foldl_same fun c hc => if_neg (htok c hc)
  have hnil : ∀ {l r : List UInt8}, t = l ++ r → (∀ c ∈ l, c ∈ text "\r") → l = [] := by
    intro l r ht hl
    cases l with
    | nil => rfl
    | cons c l => exact absurd (hl c (.head _)) (hfirst c (by rw [ht]; rfl))
  have hfind := strtok_tokens (text "\r") t
  generalize hfound : strtok (text "\r") t = found at hfind
  cases hfind with
  | none hl => exact absurd (hnil (List.append_nil t).symm hl) hne
  | last hl _ htok =>
    obtain rfl := hnil rfl hl
    exact hvalue _ htok
  | more hl _ htok he =>
    obtain rfl := hnil rfl hl
    rw [List.nil_append, List.foldl_append, hvalue _ htok, List.foldl_cons, Place.next, if_pos he]

/-- The white space in front of a value, and the value itself up to its end. -/
theorem foldl_space (t : List UInt8) : t.foldl Place.next .space =
    match strtok (text "\r") (t.dropWhile isspace) with
    | none => .space
    | some (_, none) => .value
    | some (_, some rest) => rest.foldl Place.next (.front (text "\n:")) := by
  have hspaces : (t.takeWhile isspace).foldl Place.next .space = .space :=
    foldl_same fun c hc => if_pos (List.mem_takeWhile_imp hc)
  conv_lhs => rw [← List.takeWhile_append_dropWhile (p := isspace) (l := t)]
  rw [List.foldl_append, hspaces]
  cases hdrop : t.dropWhile isspace with
  | nil => rfl
  | cons c s =>
    have hc : isspace c = false := HttpParseBlocks.of_dropWhile_eq hdrop
    have hcr : c ∉ text "\r" := by
      intro h
      obtain rfl := List.mem_singleton.mp h
      exact absurd hc (by decide)
    have hstart : (c :: s).foldl Place.next .space = (c :: s).foldl Place.next .value := by
      rw [List.foldl_cons, List.foldl_cons, Place.next, if_neg (by simp [hc]), Place.next,
        if_neg hcr]
    rw [hstart]
    exact foldl_value (List.cons_ne_nil c s) fun d hd => Option.some.inj hd ▸ hcr

/-- The loop stays inside of the copy if and only if the text does not end in a name. The
induction is on the length of the text in which the next name is looked for. -/
theorem parseHeaderLoop_ok (hfuel : t.length ≤ fuel) :
    (∃ entries, parseHeaderLoop fuel (strtok delims t) headers = .ok entries) ↔
      (t.foldl Place.next (.front delims)).isName = false := by
  induction hlen : t.length using Nat.strong_induction_on generalizing t fuel delims headers with
  | h m ih =>
    subst hlen
    have hfind := strtok_tokens delims t
    generalize strtok delims t = found at hfind
    cases hfind with
    | none hl =>
      rw [foldl_front hl]
      exact ⟨fun _ => rfl, fun _ => ⟨headers, by cases fuel <;> rfl⟩⟩
    | last hl hne htok =>
      rw [List.foldl_append, foldl_front hl, foldl_token hne htok]
      constructor
      · rintro ⟨entries, h⟩
        cases fuel <;> cases h
      · intro h
        cases h
    | @more l tok e rest hl hne htok he =>
      simp only [List.length_append, List.length_cons] at hfuel ih
      obtain ⟨fuel, rfl⟩ : ∃ k, fuel = k + 1 := ⟨fuel - 1, by omega⟩
      rw [List.foldl_append, foldl_front hl, List.foldl_append, foldl_token hne htok,
        List.foldl_cons, Place.next, if_pos he, foldl_space, parseHeaderLoop]
      have hfind := strtok_tokens (text "\r") (rest.dropWhile isspace)
      have hshort := (List.dropWhile_suffix isspace (l := rest)).length_le
      generalize rest.dropWhile isspace = u at hfind hshort
      generalize strtok (text "\r") u = value at hfind
      cases hfind with
      | none => exact ⟨fun _ => rfl, fun _ => ⟨_, rfl⟩⟩
      | last => exact ⟨fun _ => rfl, fun _ => ⟨_, by cases fuel <;> rfl⟩⟩
      | @more _ _ _ rest' =>
        simp only [List.length_append, List.length_cons] at hshort
        exact ih rest'.length (by omega) (t := rest') (by omega) rfl

variable {msg msg' : Msg} {b : Bool} {startLine : List UInt8} {cr : ℕ}

/-- The first line has been received, with its carriage return at `cr`. -/
def LineEnd (msg : Msg) (cr : ℕ) : Prop :=
  memchr msg.buf (chr '\r') (msg.buf.length - 1) = some cr ∧ msg.buf[cr + 1]? = some (chr '\n')

/-- What a function for the start line leaves as it is. -/
structure Kept (msg msg' : Msg) : Prop where
  type : msg'.type = msg.type
  buf : msg'.buf = msg.buf
  headers : msg'.headers = msg.headers
  hasHeaders : msg'.hasHeaders = msg.hasHeaders

/-- A start line is rejected, or parsed up to its end. -/
structure LineParsed (msg : Msg) (cr : ℕ) (msg' : Msg) (b : Bool) : Prop where
  kept : Kept msg msg'
  rejected : b = false → msg'.isInvalid = true ∧ msg'.startLine = msg.startLine
  parsed : b = true → msg'.isInvalid = msg.isInvalid ∧ msg'.startLine = true ∧
    msg'.parsingOffset = cr + 2

theorem lineParsed_invalid (hkept : Kept msg msg') (hstart : msg'.startLine = msg.startLine)
    (cr : ℕ) : LineParsed msg cr (invalid msg').1 (invalid msg').2 :=
  ⟨⟨hkept.type, hkept.buf, hkept.headers, hkept.hasHeaders⟩, fun _ => ⟨rfl, hstart⟩, nofun⟩

theorem parseRequestLine_parsed (msg : Msg) (startLine : List UInt8) (cr : ℕ) :
    LineParsed msg cr (parseRequestLine msg startLine cr).1
      (parseRequestLine msg startLine cr).2 := by
  rw [parseRequestLine]
  split
  · apply lineParsed_invalid
    exacts [⟨rfl, rfl, rfl, rfl⟩, rfl]
  · simp only
    split
    · apply lineParsed_invalid
      exacts [⟨rfl, rfl, rfl, rfl⟩, rfl]
    · split
      · apply lineParsed_invalid
        exacts [⟨rfl, rfl, rfl, rfl⟩, rfl]
      · split
        · apply lineParsed_invalid
          exacts [⟨rfl, rfl, rfl, rfl⟩, rfl]
        · refine ⟨⟨rfl, rfl, rfl, rfl⟩, fun h => ?_, fun _ => ⟨rfl, rfl, rfl⟩⟩
          cases h

theorem parseStatusLine_parsed (h : parseStatusLine msg startLine cr = .ok (msg', b)) :
    LineParsed msg cr msg' b := by
  rw [parseStatusLine] at h
  simp only at h
  split at h
  · obtain ⟨rfl, rfl⟩ := Prod.mk.inj (Except.ok.inj h)
    apply lineParsed_invalid
    exacts [⟨rfl, rfl, rfl, rfl⟩, rfl]
  · cases h
  · split at h
    · obtain ⟨rfl, rfl⟩ := Prod.mk.inj (Except.ok.inj h)
      apply lineParsed_invalid
      exacts [⟨rfl, rfl, rfl, rfl⟩, rfl]
    · split at h
      · obtain ⟨rfl, rfl⟩ := Prod.mk.inj (Except.ok.inj h)
        apply lineParsed_invalid
        exacts [⟨rfl, rfl, rfl, rfl⟩, rfl]
      · obtain ⟨rfl, rfl⟩ := Prod.mk.inj (Except.ok.inj h)
        refine ⟨⟨rfl, rfl, rfl, rfl⟩, fun h => ?_, fun _ => ⟨rfl, rfl, rfl⟩⟩
        cases h

theorem parseStartLine_cases (h : parseStartLine msg = .ok (msg', b)) :
    (msg' = msg ∧ b = false ∧ ∀ cr, ¬ LineEnd msg cr) ∨
      ∃ cr, LineEnd msg cr ∧ LineParsed msg cr msg' b := by
  rw [parseStartLine] at h
  split at h
  · cases h
  · split at h
    · rename_i hnone
      obtain ⟨rfl, rfl⟩ := Prod.mk.inj (Except.ok.inj h)
      refine .inl ⟨rfl, rfl, fun cr hcr => ?_⟩
      rw [hcr.1] at hnone
      cases hnone
    · rename_i cr hcr
      split at h
      · rename_i hlf
        refine .inr ⟨cr, ⟨hcr, hlf⟩, ?_⟩
        split at h
        · have := parseRequestLine_parsed msg (msg.buf.take (cr + 2)) cr
          rwa [Except.ok.inj h] at this
        · exact parseStatusLine_parsed h
      · rename_i hlf
        obtain ⟨rfl, rfl⟩ := Prod.mk.inj (Except.ok.inj h)
        refine .inl ⟨rfl, rfl, fun cr' hcr' => hlf ?_⟩
        obtain rfl := Option.some.inj (hcr.symm.trans hcr'.1)
        exact hcr'.2

theorem LineEnd.lt (h : LineEnd msg cr) : cr + 2 ≤ msg.buf.length :=
  (List.getElem?_eq_some_iff.mp h.2).1

/-- The bytes behind the start line up to the first empty line, whose two line breaks are there
when it follows the start line directly. -/
def HeadersEnd (msg : Msg) (i : ℕ) : Prop :=
  strstr (cstr (msg.buf.drop (msg.parsingOffset - 2))) blankLine = some i

theorem parseHeaders_cases (h : parseHeaders msg = .ok (msg', b)) :
    2 ≤ msg.parsingOffset ∧ ((msg' = msg ∧ b = false ∧ ∀ i, ¬ HeadersEnd msg i) ∨
      ∃ i headers, HeadersEnd msg i ∧ b = true ∧ msg' =
        { msg with
          parsingOffset := msg.parsingOffset - 2 + i + 4
          headers
          hasHeaders := true }) := by
  rw [parseHeaders] at h
  split at h
  · cases h
  · rename_i hfront
    refine ⟨Nat.le_of_not_lt hfront, ?_⟩
    split at h
    · rename_i hnone
      obtain ⟨rfl, rfl⟩ := Prod.mk.inj (Except.ok.inj h)
      refine .inl ⟨rfl, rfl, fun i hi => ?_⟩
      cases hnone.symm.trans hi
    · rename_i i hi
      refine .inr ⟨i, ?_⟩
      simp only at h
      split at h
      · obtain ⟨rfl, rfl⟩ := Prod.mk.inj (Except.ok.inj h)
        exact ⟨msg.headers, hi, rfl, rfl⟩
      · unfold Except.map at h
        split at h
        · cases h
        · rename_i headers _
          obtain ⟨rfl, rfl⟩ := Prod.mk.inj (Except.ok.inj h)
          exact ⟨headers, hi, rfl, rfl⟩

theorem HeadersEnd.le {i : ℕ} (h : HeadersEnd msg i) (hfront : 2 ≤ msg.parsingOffset) :
    msg.parsingOffset - 2 + i + 4 ≤ msg.buf.length := by
  have hat := ((strstr_eq_some (by decide)).mp h).1.length_le
  have hle := (List.takeWhile_prefix (· ≠ 0) (l := msg.buf.drop (msg.parsingOffset - 2))).length_le
  rw [List.length_drop] at hat
  rw [List.length_drop] at hle
  simp only [cstr, show blankLine.length = 4 from rfl] at hat
  omega

theorem parseBody_cases (h : parseBody msg = (msg', false)) :
    msg' = msg ∨ msg' = { msg with isInvalid := true } := by
  rw [parseBody] at h
  split at h
  · split at h
    · exact .inr (Prod.mk.inj h).1.symm
    · split at h
      · exact .inl (Prod.mk.inj h).1.symm
      · cases h
  · split at h
    · cases h
    · exact .inr (Prod.mk.inj h).1.symm

/-- A message of a type while it is received: the next bytes arrive, or one of the functions is
called, those for the headers and the body behind a start line. A body that has been parsed is the
end. -/
inductive Receiving (type : MsgType) : Msg → Prop
  | create : Receiving type (create type [])
  | recv {msg : Msg} (chunk : List UInt8) :
    Receiving type msg → Receiving type { msg with buf := msg.buf ++ chunk }
  | startLine {msg msg' : Msg} {b : Bool} : Receiving type msg → msg.startLine = false →
    HttpParseBlocks.parseStartLine msg = .ok (msg', b) → Receiving type msg'
  | headers {msg msg' : Msg} {b : Bool} : Receiving type msg → msg.startLine = true →
    HttpParseBlocks.parseHeaders msg = .ok (msg', b) → Receiving type msg'
  | body {msg msg' : Msg} : Receiving type msg → msg.startLine = true →
    parseBody msg = (msg', false) → Receiving type msg'

/-- The function that is called for the start line or for the headers reads and writes inside of
its blocks. -/
def Stays (msg : Msg) : Prop :=
  if msg.startLine then ∃ r, HttpParseBlocks.parseHeaders msg = .ok r
  else ∃ r, HttpParseBlocks.parseStartLine msg = .ok r

/-- The header text: what is behind the start line, up to the first empty line. -/
def headerText (msg : Msg) : List UInt8 :=
  match strstr (cstr (msg.buf.drop (msg.parsingOffset - 2))) blankLine with
  | none => []
  | some i => (msg.buf.drop msg.parsingOffset).take (i - 2)

/-- The headers do not end in a name, and the line of a response does not begin with a space. -/
def WellDelimited (msg : Msg) : Prop :=
  if msg.startLine then ¬ NameAtEnd (headerText msg)
  else ¬ (msg.type = .response ∧ msg.buf.head? = some (chr ' ') ∧ ∃ cr, LineEnd msg cr)

variable {type : MsgType}

theorem scan_ok {α : Type} {x : Except Fault α} : (∃ a, scan x = .ok a) ↔ ∃ a, x = .ok a := by
  cases x with
  | ok a => exact ⟨fun _ => ⟨a, rfl⟩, fun _ => ⟨a, rfl⟩⟩
  | error e =>
    constructor
    · rintro ⟨a, h⟩
      cases h
    · rintro ⟨a, h⟩
      cases h

/-- The offset is behind the start line, and inside of what has been received. -/
theorem Receiving.offset (h : Receiving type msg) (hstart : msg.startLine = true) :
    2 ≤ msg.parsingOffset ∧ msg.parsingOffset ≤ msg.buf.length := by
  induction h with
  | create => cases hstart
  | recv chunk _ ih =>
    obtain ⟨hfront, hback⟩ := ih hstart
    exact ⟨hfront, by rw [List.length_append]; exact Nat.le_add_right_of_le hback⟩
  | @startLine msg msg' b _ hno hparse ih =>
    rw [parseStartLine_eq] at hparse
    obtain ⟨r, hr⟩ := scan_ok.mp ⟨_, hparse⟩
    rw [hr] at hparse
    obtain rfl := Except.ok.inj hparse
    obtain ⟨rfl, -, -⟩ | ⟨cr, hcr, hline⟩ := parseStartLine_cases hr
    · exact ih hstart
    · cases b with
      | false =>
        rw [(hline.rejected rfl).2, hno] at hstart
        cases hstart
      | true =>
        rw [(hline.parsed rfl).2.2, hline.kept.buf]
        exact ⟨Nat.le_add_left _ _, hcr.lt⟩
  | @headers msg msg' b _ hyes hparse ih =>
    obtain ⟨hfront, hback⟩ := ih hyes
    rw [parseHeaders_eq hback] at hparse
    obtain ⟨r, hr⟩ := scan_ok.mp ⟨_, hparse⟩
    rw [hr] at hparse
    obtain rfl := Except.ok.inj hparse
    obtain ⟨-, ⟨rfl, -, -⟩ | ⟨i, headers, hi, -, rfl⟩⟩ := parseHeaders_cases hr
    · exact ⟨hfront, hback⟩
    · exact ⟨by simp, hi.le hfront⟩
  | body _ hyes hparse ih =>
    obtain rfl | rfl := parseBody_cases hparse
    · exact ih hyes
    · exact ih hyes

theorem strchr_zero {s : List UInt8} {c : UInt8} :
    CText.strchr s c = some 0 ↔ s.head? = some c := by
  cases s with
  | nil => simp [CText.strchr]
  | cons d s =>
    rw [CText.strchr, List.idxOf?_cons]
    by_cases hd : d = c <;> simp [hd]

/-- The line of a response is read in front of its copy if it begins with a space. -/
theorem parseStatusLine_ok : (∃ r, parseStatusLine msg startLine cr = .ok r) ↔
    (cstr (startLine.take (startLine.length - 2))).head? ≠ some (chr ' ') := by
  rw [parseStatusLine, ← not_iff_not, not_not, ← strchr_zero]
  simp only
  constructor
  · intro h
    cases hfirst : CText.strchr (cstr (startLine.take (startLine.length - 2))) (chr ' ') with
    | none => exact absurd ⟨_, by rw [hfirst]⟩ h
    | some n =>
      cases n with
      | zero => rfl
      | succ n =>
        refine absurd ?_ h
        rw [hfirst]
        simp only
        split
        · exact ⟨_, rfl⟩
        · split <;> exact ⟨_, rfl⟩
  · rintro h ⟨r, hr⟩
    rw [h] at hr
    cases hr

/-- A line whose carriage return is found at `cr` begins as its copy does. -/
theorem head_line {buf : List UInt8} {n : ℕ} (hcr : memchr buf (chr '\r') n = some cr) :
    (cstr (buf.take cr)).head? = some (chr ' ') ↔ buf.head? = some (chr ' ') := by
  obtain ⟨hlt, hget, -⟩ := List.idxOf?_eq_some_iff.mp hcr
  cases buf with
  | nil => simp at hlt
  | cons c buf =>
    cases cr with
    | zero =>
      have hc : c = chr '\r' := by simpa using hget
      have hne : c ≠ chr ' ' := hc ▸ by decide
      simp [cstr, hne]
    | succ cr =>
      rw [List.take_succ_cons, List.head?_cons, cstr]
      by_cases hc : c = 0
      · simp [hc, show (0 : UInt8) ≠ chr ' ' by decide]
      · rw [List.takeWhile_cons_of_pos (by simpa using hc), List.head?_cons]

theorem parseStartLine_ok (hne : msg.buf ≠ []) : (∃ r, parseStartLine msg = .ok r) ↔
    ¬ (msg.type = .response ∧ msg.buf.head? = some (chr ' ') ∧ ∃ cr, LineEnd msg cr) := by
  rw [parseStartLine, if_neg hne]
  cases hfound : memchr msg.buf (chr '\r') (msg.buf.length - 1) with
  | none =>
    refine ⟨fun _ => ?_, fun _ => ⟨_, rfl⟩⟩
    rintro ⟨-, -, cr, hcr, -⟩
    cases hfound.symm.trans hcr
  | some cr =>
    by_cases hlf : msg.buf[cr + 1]? = some (chr '\n')
    · simp only [if_pos hlf]
      cases htype : msg.type with
      | request =>
        refine ⟨fun _ h => ?_, fun _ => ⟨_, rfl⟩⟩
        cases h.1
      | response =>
        have hline : (msg.buf.take (cr + 2)).length = cr + 2 :=
          List.length_take_of_le (LineEnd.lt ⟨hfound, hlf⟩)
        simp only
        rw [parseStatusLine_ok, hline, List.take_take, Nat.add_sub_cancel,
          Nat.min_eq_left (Nat.le_add_right cr 2), Ne, head_line hfound]
        exact not_congr ⟨fun h => ⟨trivial, h, cr, hfound, hlf⟩, fun h => h.2.1⟩
    · simp only [if_neg hlf]
      refine ⟨fun _ => ?_, fun _ => ⟨_, rfl⟩⟩
      rintro ⟨-, -, cr', hcr', hlf'⟩
      obtain rfl := Option.some.inj (hfound.symm.trans hcr')
      exact hlf hlf'

theorem parseHeaders_ok (hfront : 2 ≤ msg.parsingOffset) :
    (∃ r, parseHeaders msg = .ok r) ↔ ¬ NameAtEnd (headerText msg) := by
  rw [parseHeaders, if_neg (Nat.not_lt.mpr hfront), headerText, blankLine]
  cases hfound : strstr (cstr (msg.buf.drop (msg.parsingOffset - 2))) (crlf ++ crlf) with
  | none => exact ⟨fun _ => (by decide : ¬ NameAtEnd []), fun _ => ⟨_, rfl⟩⟩
  | some i =>
    simp only
    split
    · have hzero : i - 2 = 0 := by omega
      rw [hzero, List.take_zero]
      exact ⟨fun _ => by decide, fun _ => ⟨_, rfl⟩⟩
    · have hsub : msg.parsingOffset - 2 + i - msg.parsingOffset = i - 2 := by omega
      rw [hsub, NameAtEnd, Bool.not_eq_true, ← parseHeaderLoop_ok (Nat.le_refl _)]
      constructor
      · rintro ⟨r, hr⟩
        unfold Except.map at hr
        split at hr
        · cases hr
        · exact ⟨_, ‹_›⟩
      · rintro ⟨entries, hentries⟩
        exact ⟨_, by rw [hentries]; rfl⟩

/-- While a message is received, the next call stays inside of its blocks if and only if the
received bytes are well delimited. -/
theorem stays_iff (h : Receiving type msg) (hne : msg.buf ≠ []) :
    Stays msg ↔ WellDelimited msg := by
  rw [Stays, WellDelimited]
  cases hstart : msg.startLine with
  | false =>
    simp only [Bool.false_eq_true, if_false]
    rw [parseStartLine_eq, scan_ok]
    exact parseStartLine_ok hne
  | true =>
    obtain ⟨hfront, hback⟩ := h.offset hstart
    simp only [if_true]
    rw [parseHeaders_eq hback, scan_ok]
    exact parseHeaders_ok hfront

/-- What is received of a request whose only header line is given. -/
def requestWith (header : String) : List UInt8 :=
  text "GET / HTTP/1.1\r\n" ++ text header ++ blankLine

/-- The request once its start line is parsed. -/
def requestStarted (header : String) : Msg :=
  { create .request (requestWith header) with
    ver := .v1_1
    methodSpUri := some (text "GET /")
    uri := some (text "/")
    versionCrlf := some (text "HTTP/1.1\r\n")
    method := .get
    parsingOffset := 16
    startLine := true }

theorem receiving_requestStarted (header : String)
    (h : HttpParseBlocks.parseStartLine (create .request (requestWith header)) =
      .ok (requestStarted header, true)) : Receiving .request (requestStarted header) :=
  .startLine (.recv (requestWith header) .create) rfl h

theorem stays_iff_host :
    Stays (requestStarted "Host: a") ↔ WellDelimited (requestStarted "Host: a") :=
  stays_iff (receiving_requestStarted _ (by decide +kernel)) (by decide)

theorem not_stays_bare : ¬ ∀ (type : MsgType) (msg : Msg), Receiving type msg → msg.buf ≠ [] →
    Stays msg := by
  intro h
  have hstays := h .request _ (receiving_requestStarted "Host" (by decide +kernel)) (by decide)
  have hfault : HttpParseBlocks.parseHeaders (requestStarted "Host") = .error .fault := by
    decide +kernel
  obtain ⟨r, hr⟩ : ∃ r, HttpParseBlocks.parseHeaders (requestStarted "Host") = .ok r := hstays
  rw [hfault] at hr
  cases hr

end Libuo.HttpParseSafety
