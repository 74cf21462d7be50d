import Libuo.HttpHeaders

/-!
# Start lines

What `uo_http_msg_parse_start_line` makes of the first line of a message, and of a part
of it.
-/

namespace Libuo.HttpStartLine
open CStrings CText HttpMsg HttpHeaders

variable {msg : Msg} {line method uri version r : List UInt8}

theorem parseStartLine_line (hline : OneLine line) (hbuf : msg.buf = line ++ (crlf ++ r)) :
    parseStartLine msg =
      match msg.type with
      | .request => .ok (parseRequestLine msg (line ++ crlf) line.length)
      | .response => parseStatusLine msg (line ++ crlf) line.length := by
  have hne : msg.buf ≠ [] := by simp [hbuf, crlf, text]
  have hcr : memchr msg.buf (chr '\r') (msg.buf.length - 1) = some line.length := by
    rw [hbuf]
    exact memchr_eq hline.no_cr (by simp [crlf, text])
  have hlf : msg.buf[line.length + 1]? = some (chr '\n') := by
    rw [hbuf, List.getElem?_append_right (by omega), Nat.add_sub_cancel_left]
    rfl
  have htake : msg.buf.take (line.length + 2) = line ++ crlf := by
    rw [hbuf, ← List.append_assoc]
    exact List.take_left' (by rw [List.length_append]; rfl)
  rw [parseStartLine, if_neg hne, hcr]
  cases msg.type <;> simp only [if_pos hlf, htake]

theorem parseStartLine_cut (hline : OneLine line) (hne : msg.buf ≠ [])
    (hcut : msg.buf <+: line ++ crlf) (hlt : msg.buf.length < line.length + 2) :
    parseStartLine msg = .ok (msg, false) := by
  have hpos := List.length_pos_of_ne_nil hne
  have hcr : chr '\r' ∉ msg.buf.take (msg.buf.length - 1) := by
    have hpre : msg.buf.take (msg.buf.length - 1) <+: line :=
      List.prefix_of_prefix_length_le ((List.take_prefix _ _).trans hcut)
        (List.prefix_append line crlf) (by rw [List.length_take]; omega)
    exact fun h => hline.no_cr (hpre.mem h)
  rw [parseStartLine, if_neg hne, memchr_eq_none hcr]

/-- The character before the end of the version. -/
def lastChar (version : List UInt8) : UInt8 := (0 :: version).getD version.length 0

theorem getD_lastChar (version r : List UInt8) :
    (0 :: (version ++ r)).getD version.length 0 = lastChar version := by
  rw [lastChar, ← List.cons_append, List.getD_eq_getElem?_getD, List.getD_eq_getElem?_getD,
    List.getElem?_append_left (by simp)]

/-- A request line: what is before the first space, between the first and the last one, and
behind it. -/
theorem parseRequestLine_eq (hspace : chr ' ' ∉ method) (hmethod : OneLine method)
    (huri : OneLine uri) (hspace' : chr ' ' ∉ version) (hversion : OneLine version) (cr : ℕ) :
    parseRequestLine msg (method ++ chr ' ' :: (uri ++ chr ' ' :: version) ++ crlf) cr =
      match verOf (lastChar version) with
      | none => invalid { msg with method := (methodOf method).getD msg.method }
      | some ver => ({ msg with
          method := (methodOf method).getD msg.method
          ver
          methodSpUri := some (method ++ chr ' ' :: uri)
          uri := some uri
          versionCrlf := some (version ++ crlf)
          parsingOffset := cr + 2
          startLine := true }, true) := by
  have hline : method ++ chr ' ' :: (uri ++ chr ' ' :: version) ++ crlf =
      method ++ chr ' ' :: (uri ++ chr ' ' :: (version ++ crlf)) := by simp
  have hzero : 0 ∉ uri ++ chr ' ' :: (version ++ crlf) := by
    simp only [List.mem_append, List.mem_cons, not_or]
    exact ⟨huri.zero, by decide, hversion.zero, by decide⟩
  have hsp1 : memchr (method ++ chr ' ' :: (uri ++ chr ' ' :: (version ++ crlf))) (chr ' ')
      (method ++ chr ' ' :: (uri ++ chr ' ' :: (version ++ crlf))).length = some method.length :=
    memchr_eq hspace (by simp)
  have hmethod' : (method ++ chr ' ' :: (uri ++ chr ' ' :: (version ++ crlf))).take method.length =
      method := List.take_left
  have hrest : cstr ((method ++ chr ' ' :: (uri ++ chr ' ' :: (version ++ crlf))).drop
      (method.length + 1)) = uri ++ chr ' ' :: (version ++ crlf) := by
    rw [← List.drop_drop, List.drop_left]
    exact cstr_eq hzero
  have hsp2 : strrchr (uri ++ chr ' ' :: (version ++ crlf)) (chr ' ') = some uri.length :=
    strrchr_eq fun h => (List.mem_append.mp h).elim hspace' (by decide)
  have hversion' : (uri ++ chr ' ' :: (version ++ crlf)).drop (uri.length + 1) =
      version ++ crlf := by
    rw [← List.drop_drop, List.drop_left]
    rfl
  have hcr : strchr (version ++ crlf) (chr '\r') = some version.length :=
    strchr_eq hversion.no_cr
  have hsp : cstr ((method ++ chr ' ' :: (uri ++ chr ' ' :: (version ++ crlf))).take
      (method.length + 1 + uri.length)) = method ++ chr ' ' :: uri := by
    have hsplit : method ++ chr ' ' :: (uri ++ chr ' ' :: (version ++ crlf)) =
        (method ++ chr ' ' :: uri) ++ chr ' ' :: (version ++ crlf) := by simp
    rw [hsplit, List.take_left' (by simp; omega)]
    refine cstr_eq ?_
    simp only [List.mem_append, List.mem_cons, not_or]
    exact ⟨hmethod.zero, by decide, huri.zero⟩
  rw [hline, parseRequestLine, hsp1]
  cases hver : verOf (lastChar version) <;>
    simp only [hmethod', hrest, hsp2, hversion', hcr, getD_lastChar, hsp, hver, List.take_left]

theorem parseStatusLine_eq {status : List UInt8} (hne : version ≠ [])
    (hspace : chr ' ' ∉ version) (hversion : OneLine version) (hstatus : OneLine status) (cr : ℕ) :
    parseStatusLine msg (version ++ chr ' ' :: status ++ crlf) cr =
      match verOf (lastChar version), (scanInt status).bind statusOf with
      | none, _ => .ok (invalid msg)
      | some ver, none => .ok (invalid { msg with ver })
      | some ver, some code => .ok ({ msg with
          ver
          status := code
          version := some (version ++ chr ' ' :: status)
          statusSpReason := some status
          parsingOffset := cr + 2
          startLine := true }, true) := by
  obtain ⟨n, hn⟩ := Nat.exists_eq_add_one_of_ne_zero (mt List.length_eq_zero_iff.mp hne)
  have hline : cstr ((version ++ chr ' ' :: status ++ crlf).take
      ((version ++ chr ' ' :: status ++ crlf).length - 2)) = version ++ chr ' ' :: status := by
    rw [List.take_left' (by simp [crlf, text]; omega)]
    refine cstr_eq ?_
    simp only [List.mem_append, List.mem_cons, not_or]
    exact ⟨hversion.zero, by decide, hstatus.zero⟩
  have hsp : strchr (version ++ chr ' ' :: status) (chr ' ') = some (n + 1) :=
    hn ▸ strchr_eq hspace
  have hlast : (version ++ chr ' ' :: status).getD n 0 = lastChar version := by
    rw [← getD_lastChar version (chr ' ' :: status), hn]
    rfl
  have hcode : (version ++ chr ' ' :: status).drop (n + 2) = status := by
    rw [show n + 2 = version.length + 1 by omega, ← List.drop_drop, List.drop_left]
    rfl
  simp only [parseStatusLine, hline, hsp, hlast, hcode]
  cases verOf (lastChar version) with
  | none => rfl
  | some ver => cases (scanInt status).bind statusOf <;> rfl

end Libuo.HttpStartLine
