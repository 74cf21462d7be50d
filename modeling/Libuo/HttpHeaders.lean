import Libuo.HttpMsg
import Mathlib.Algebra.Group.Nat.Even
import Mathlib.Data.List.Induction

/-!
# Header lines

What `uo_http_msg_parse_headers` makes of a sequence of header lines. White space behind
a colon is passed over together with the line's end, so that a line whose value is blank
takes the next line for its value.
-/

namespace Libuo.HttpHeaders
open CStrings CText OrderedMap HttpMsg

def IsToken (s : List UInt8) : Prop :=
  s ≠ [] ∧ ∀ c ∈ s, isspace c = false ∧ c ≠ chr ':' ∧ c ≠ 0

/-- Without the end of a line or of a string. -/
def OneLine (s : List UInt8) : Prop := ∀ c ∈ s, c ≠ chr '\r' ∧ c ≠ chr '\n' ∧ c ≠ 0

instance (s : List UInt8) : Decidable (IsToken s) :=
  inferInstanceAs (Decidable (s ≠ [] ∧ ∀ c ∈ s, isspace c = false ∧ c ≠ chr ':' ∧ c ≠ 0))

instance (s : List UInt8) : Decidable (OneLine s) :=
  inferInstanceAs (Decidable (∀ c ∈ s, c ≠ chr '\r' ∧ c ≠ chr '\n' ∧ c ≠ 0))

/-- A header line without its end. -/
structure Line where
  name : List UInt8
  rest : List UInt8
  isToken : IsToken name
  oneLine : OneLine rest

namespace Line

def text (l : Line) : List UInt8 := l.name ++ chr ':' :: l.rest

/-- What is behind the colon, without white space in front. -/
def value (l : Line) : List UInt8 := l.rest.dropWhile isspace

def key (l : Line) : List UInt8 := l.name.map tolower

end Line

/-- Lines with their ends in front. -/
def block (lines : List Line) : List UInt8 := lines.flatMap fun l => crlf ++ l.text

/-- The entries that the lines give: a blank value is replaced by the line that follows. -/
def readLines : List Line → List (List UInt8 × Option (List UInt8))
  | [] => []
  | [l] => [(l.key, if l.value = [] then none else some l.value)]
  | l :: l' :: lines =>
    if l.value = [] then (l.key, some l'.text) :: readLines lines
    else (l.key, some l.value) :: readLines (l' :: lines)

/-- The entries are stored one after the other. -/
def store (headers entries : List (List UInt8 × Option (List UInt8))) :
    List (List UInt8 × Option (List UInt8)) :=
  entries.foldl (fun headers e => OrderedMap.set strings headers e.1 e.2) headers

/-- The names of all entries are different. -/
def DistinctNames (entries : List (List UInt8 × Option (List UInt8))) : Prop :=
  (entries.map Prod.fst).Nodup

variable {s t delims : List UInt8} {l : Line} {lines : List Line} {fuel : ℕ}
  {headers : List (List UInt8 × Option (List UInt8))}

theorem readLines_cons (h : l.value ≠ []) :
    readLines (l :: lines) = (l.key, some l.value) :: readLines lines := by
  cases lines with
  | nil => simp [readLines, h]
  | cons l' lines => rw [readLines, if_neg h]

theorem OneLine.no_cr (h : OneLine s) : chr '\r' ∉ s := fun hc => (h _ hc).1 rfl

theorem OneLine.zero (h : OneLine s) : 0 ∉ s := fun hc => (h _ hc).2.2 rfl

theorem IsToken.oneLine (h : IsToken s) : OneLine s := by
  intro c hc
  obtain ⟨hspace, -, hzero⟩ := h.2 c hc
  refine ⟨?_, ?_, hzero⟩ <;>
  · rintro rfl
    revert hspace
    decide

theorem OneLine.append (hs : OneLine s) (ht : OneLine t) : OneLine (s ++ t) := fun c hc =>
  (List.mem_append.mp hc).elim (hs c) (ht c)

theorem Line.oneLine_text (l : Line) : OneLine l.text := by
  refine l.isToken.oneLine.append fun c hc => ?_
  rcases List.mem_cons.mp hc with rfl | hc
  · decide
  · exact l.oneLine c hc

theorem Line.text_eq_cons (l : Line) : ∃ c r, l.text = c :: r ∧ isspace c = false := by
  obtain ⟨c, r, hcr⟩ := List.exists_cons_of_ne_nil l.isToken.1
  exact ⟨c, r ++ chr ':' :: l.rest, by rw [Line.text, hcr, List.cons_append],
    (l.isToken.2 c (by rw [hcr]; exact .head _)).1⟩

theorem store_append (headers a b : List (List UInt8 × Option (List UInt8))) :
    store headers (a ++ b) = store (store headers a) b := List.foldl_append

theorem DistinctNames.ordered {entries : List (List UInt8 × Option (List UInt8))}
    (h : DistinctNames entries) : OrderedMap.Distinct strings entries := by
  rw [DistinctNames, List.Nodup, List.pairwise_map] at h
  exact h.imp fun hne => beq_eq_false_iff_ne.mpr hne

/-- Entries with different names are stored in their order. -/
theorem store_distinct {entries : List (List UInt8 × Option (List UInt8))}
    (h : DistinctNames (headers ++ entries)) : store headers entries = headers ++ entries := by
  induction entries generalizing headers with
  | nil => rw [List.append_nil]; rfl
  | cons e entries ih =>
    have hnone : OrderedMap.get strings headers e.1 = none := by
      by_contra hne
      obtain ⟨e', he', heq⟩ := get_isSome.mp (Option.isSome_iff_ne_none.mpr hne)
      rw [DistinctNames, List.map_append, List.nodup_append] at h
      exact h.2.2 _ (List.mem_map_of_mem he') _ (List.mem_map_of_mem (.head _))
        (beq_iff_eq.mp heq)
    have hset : OrderedMap.set strings headers e.1 e.2 = headers ++ [e] := by
      rw [OrderedMap.set, hnone]
      rfl
    have happend : headers ++ e :: entries = (headers ++ [e]) ++ entries := by simp
    change store (OrderedMap.set strings headers e.1 e.2) entries = _
    rw [hset, happend]
    exact ih (happend ▸ h)

theorem DistinctNames.get {entries : List (List UInt8 × Option (List UInt8))}
    (h : DistinctNames entries)
    {e : List UInt8 × Option (List UInt8)} (he : e ∈ entries) :
    OrderedMap.get strings entries e.1 = some e.2 :=
  h.ordered.get_of_mem he (beq_self_eq_true _)

private theorem dropWhile_append_of_ne (h : s.dropWhile isspace ≠ []) (r : List UInt8) :
    (s ++ r).dropWhile isspace = s.dropWhile isspace ++ r := by
  rw [List.dropWhile_append, if_neg (by simpa using h)]

private theorem dropWhile_append_of_eq (h : s.dropWhile isspace = []) (r : List UInt8) :
    (s ++ r).dropWhile isspace = r.dropWhile isspace := by
  rw [List.dropWhile_append, if_pos (by simpa using h)]

theorem OneLine.dropWhile (h : OneLine s) : OneLine (s.dropWhile isspace) := fun c hc =>
  h c ((List.dropWhile_suffix isspace).mem hc)

theorem block_cons (l : Line) (lines : List Line) :
    block (l :: lines) = chr '\r' :: chr '\n' :: (l.text ++ block lines) := rfl

theorem block_head (lines : List Line) : ∀ c ∈ (block lines).head?, c ∈ text "\r" := by
  cases lines with
  | nil => simp [block]
  | cons l lines =>
    intro c hc
    rw [block_cons, List.head?_cons, Option.mem_some_iff] at hc
    exact hc ▸ List.mem_singleton.mpr rfl

/-- A string up to the end of its line. -/
theorem strtok_line (hs : OneLine s) (hne : s ≠ []) (lines : List Line) :
    strtok (text "\r") (s ++ block lines) = some (s, (block lines).tail?) :=
  strtok_eq (l := []) (by simp) (fun c hc hm => (hs c hc).1 (by simpa [text] using hm)) hne
    (block_head lines)

theorem strtok_name (l : Line) (lines : List Line) : strtok (text "\n:")
      (chr '\n' :: (l.text ++ block lines)) = some (l.name, some (l.rest ++ block lines)) := by
  have h := strtok_eq (l := [chr '\n']) (s := l.name) (r := chr ':' :: l.rest ++ block lines)
    (by decide : ∀ c ∈ [chr '\n'], c ∈ text "\n:") (fun c hc hm => ?_) l.isToken.1
    (by simp [text])
  · rw [Line.text, List.append_assoc]
    exact h
  · have : c = chr '\n' ∨ c = chr ':' := by simpa [text] using hm
    rcases this with rfl | rfl
    · exact (l.isToken.oneLine _ hc).2.1 rfl
    · exact (l.isToken.2 _ hc).2.1 rfl

/-- The loop at the point where the name of a line has been found. -/
theorem parseHeaderLoop_lines (hfuel : lines.length < fuel) :
    parseHeaderLoop fuel (some (l.name, some (l.rest ++ block lines))) headers =
      .ok (store headers (readLines (l :: lines))) := by
  induction fuel generalizing l lines headers with
  | zero => exact absurd hfuel (Nat.not_lt_zero _)
  | succ fuel ih =>
    have hnext (lines : List Line) (headers) (hle : lines.length ≤ fuel) :
        parseHeaderLoop fuel (strtok (text "\n:") ((block lines).tail?.getD [])) headers =
          .ok (store headers (readLines lines)) := by
      cases lines with
      | nil => cases fuel <;> rfl
      | cons l lines =>
        have hname : strtok (text "\n:") ((block (l :: lines)).tail?.getD []) =
            some (l.name, some (l.rest ++ block lines)) := strtok_name l lines
        rw [hname]
        exact ih hle
    by_cases hv : l.value = []
    · rw [parseHeaderLoop, dropWhile_append_of_eq hv]
      cases lines with
      | nil =>
        rw [readLines, if_pos hv]
        rfl
      | cons l' lines =>
        -- white space is skipped up to the next line, which is taken for the value
        obtain ⟨c, r, htext, hc⟩ := l'.text_eq_cons
        have hskip : (block (l' :: lines)).dropWhile isspace = l'.text ++ block lines := by
          rw [block_cons, htext, List.dropWhile_cons_of_pos (by decide),
            List.dropWhile_cons_of_pos (by decide), List.cons_append,
            List.dropWhile_cons_of_neg (by simp [hc])]
        have hne : l'.text ≠ [] := by simp [htext]
        rw [hskip, strtok_line l'.oneLine_text hne, readLines, if_pos hv]
        exact hnext lines _ (by simpa using Nat.le_of_succ_le hfuel)
    · rw [parseHeaderLoop, dropWhile_append_of_ne hv, strtok_line l.oneLine.dropWhile hv]
      rw [readLines_cons hv]
      exact hnext lines _ (Nat.le_of_lt_succ hfuel)

/-- Without blank values, every line is read as an entry. -/
theorem readLines_eq (h : ∀ l ∈ lines, l.value ≠ []) :
    readLines lines = lines.map fun l => (l.key, some l.value) := by
  induction lines with
  | nil => rfl
  | cons l lines ih =>
    rw [List.map_cons, ← ih fun l' hl' => h l' (.tail _ hl'), readLines_cons (h l (.head _))]

/-- The names that are read are names of lines. -/
theorem keys_readLines (lines : List Line) :
    ((readLines lines).map Prod.fst).Sublist (lines.map Line.key) := by
  fun_induction readLines lines with
  | case1 => exact .slnil
  | case2 l => exact .refl _
  | case3 l l' lines h ih => exact (ih.cons _).cons_cons _
  | case4 l l' lines h ih => exact ih.cons_cons _

/-- The first line with a blank value is read with another one. -/
theorem readLines_blank (h : ∃ l ∈ lines, l.value = []) :
    ∃ l ∈ lines, l.value = [] ∧ ∃ v ≠ some [], (l.key, v) ∈ readLines lines := by
  fun_induction readLines lines with
  | case1 => simp at h
  | case2 l =>
    obtain ⟨l', hl', hv⟩ := h
    obtain rfl := List.mem_singleton.mp hl'
    exact ⟨l', .head _, hv, none, by simp, by simp [hv]⟩
  | case3 l l' lines hv ih =>
    obtain ⟨c, r, htext, -⟩ := l'.text_eq_cons
    exact ⟨l, .head _, hv, some l'.text, by simp [htext], .head _⟩
  | case4 l l' lines hv ih =>
    obtain ⟨l₀, hl₀, hv₀⟩ := h
    have hmem : l₀ ∈ l' :: lines :=
      (List.mem_cons.mp hl₀).resolve_left fun heq => hv (heq ▸ hv₀)
    obtain ⟨l₁, hl₁, hv₁, v, hne, hread⟩ := ih ⟨l₀, hmem, hv₀⟩
    exact ⟨l₁, .tail _ hl₁, hv₁, v, hne, .tail _ hread⟩

/-- The line behind these is taken for the value of the last one. -/
def swallowed : List Line → Bool
  | [] => false
  | [l] => l.value.isEmpty
  | l :: l' :: lines => if l.value = [] then swallowed lines else swallowed (l' :: lines)

/-- The number of lines with a blank value at the end. -/
def blankRun (lines : List Line) : ℕ :=
  (lines.reverse.takeWhile fun l => l.value.isEmpty).length

theorem swallowed_concat (lines : List Line) (l : Line) :
    swallowed (lines ++ [l]) = (l.value.isEmpty && !swallowed lines) := by
  fun_induction swallowed lines with
  | case1 => simp [swallowed]
  | case2 l' =>
    rw [List.singleton_append, swallowed]
    cases hv : l'.value <;> simp [swallowed]
  | case3 l₁ l₂ lines hv ih =>
    rw [← ih, List.cons_append, List.cons_append, swallowed, if_pos hv]
  | case4 l₁ l₂ lines hv ih =>
    rw [← ih, List.cons_append, List.cons_append, swallowed, if_neg hv]

/-- In a run of blank values, every second line is taken for a value. -/
theorem swallowed_iff (lines : List Line) : swallowed lines = true ↔ ¬ Even (blankRun lines) := by
  induction lines using List.reverseRecOn with
  | nil => simp [swallowed, blankRun]
  | append_singleton lines l ih =>
    have hrun : blankRun (lines ++ [l]) = if l.value.isEmpty then blankRun lines + 1 else 0 := by
      rw [blankRun, List.reverse_append, List.reverse_singleton, List.singleton_append,
        List.takeWhile_cons]
      split <;> rfl
    rw [swallowed_concat, hrun]
    cases l.value.isEmpty with
    | false => simp
    | true =>
      rw [if_pos rfl, Nat.even_add_one, Bool.true_and, ← ih]
      simp

/-- What is read of the lines behind others depends on a single bit. -/
theorem readLines_append (before : List Line) (l : Line) (after : List Line) :
    ∃ entries, readLines (before ++ l :: after) =
        entries ++ readLines (if swallowed before then after else l :: after) ∧
      ∀ e ∈ entries, ∃ l ∈ before, e.1 = l.key := by
  fun_induction swallowed before with
  | case1 => exact ⟨[], rfl, by simp⟩
  | case2 l' =>
    by_cases hv : l'.value = []
    · refine ⟨[(l'.key, some l.text)], ?_, by simp⟩
      rw [List.singleton_append, readLines, if_pos hv, if_pos (by simp [hv])]
      rfl
    · refine ⟨[(l'.key, some l'.value)], ?_, by simp⟩
      rw [List.singleton_append, readLines_cons hv, if_neg (by simp [hv])]
      rfl
  | case3 l₁ l₂ lines hv ih =>
    obtain ⟨entries, hread, hkeys⟩ := ih
    refine ⟨(l₁.key, some l₂.text) :: entries, ?_, fun e he => ?_⟩
    · rw [List.cons_append, List.cons_append, readLines, if_pos hv, hread]
      rfl
    · rcases List.mem_cons.mp he with rfl | he
      · exact ⟨l₁, .head _, rfl⟩
      · obtain ⟨l', hl', hkey⟩ := hkeys e he
        exact ⟨l', .tail _ (.tail _ hl'), hkey⟩
  | case4 l₁ l₂ lines hv ih =>
    obtain ⟨entries, hread, hkeys⟩ := ih
    refine ⟨(l₁.key, some l₁.value) :: entries, ?_, fun e he => ?_⟩
    · rw [List.cons_append, readLines_cons hv, hread]
      rfl
    · rcases List.mem_cons.mp he with rfl | he
      · exact ⟨l₁, .head _, rfl⟩
      · obtain ⟨l', hl', hkey⟩ := hkeys e he
        exact ⟨l', .tail _ hl', hkey⟩

/-- Other names leave the value of a name as it is. -/
theorem get_store_of_ne {entries : List (List UInt8 × Option (List UInt8))} {key : List UInt8}
    (h : ∀ e ∈ entries, e.1 ≠ key) : OrderedMap.get strings (store headers entries) key =
      OrderedMap.get strings headers key := by
  induction entries generalizing headers with
  | nil => rfl
  | cons e entries ih =>
    change OrderedMap.get strings (store (OrderedMap.set strings headers e.1 e.2) entries) key = _
    rw [ih fun e' he' => h e' (.tail _ he'), get_set, if_neg]
    exact fun heq => h e (.head _) (beq_iff_eq.mp heq)

/-- The value of a name that one line has, unless the line is taken for a value. -/
theorem get_readLines {before after : List Line} {l : Line} (hv : l.value ≠ [])
    (hother : ∀ l' ∈ before ++ after, l'.key ≠ l.key) :
    OrderedMap.get strings (store [] (readLines (before ++ l :: after))) l.key =
      if swallowed before then none else some (some l.value) := by
  obtain ⟨entries, hread, hkeys⟩ := readLines_append before l after
  have hentries : ∀ e ∈ entries, e.1 ≠ l.key := fun e he => by
    obtain ⟨l', hl', hkey⟩ := hkeys e he
    exact hkey ▸ hother l' (List.mem_append_left _ hl')
  have hafter : ∀ e ∈ readLines after, e.1 ≠ l.key := fun e he => by
    obtain ⟨l', hl', hkey⟩ := List.mem_map.mp ((keys_readLines after).mem (List.mem_map_of_mem he))
    exact hkey ▸ hother l' (List.mem_append_right _ hl')
  rw [hread, store_append]
  split
  · rw [get_store_of_ne hafter, get_store_of_ne hentries]
    rfl
  · rw [readLines_cons hv]
    change OrderedMap.get strings (store (OrderedMap.set strings _ l.key _) _) l.key = _
    rw [get_store_of_ne hafter, get_set, if_pos (strings.refl _)]

/-- The end of the last line and the empty line. -/
def blankLine : List UInt8 := crlf ++ crlf

theorem blankLine_eq :
    blankLine = chr '\r' :: [chr '\n', chr '\r', chr '\n'] := rfl

theorem zero_not_mem_block (lines : List Line) : 0 ∉ block lines := by
  intro h
  obtain ⟨l, -, hl⟩ := List.mem_flatMap.mp h
  rcases List.mem_append.mp hl with hl | hl
  · revert hl
    decide
  · exact l.oneLine_text.zero hl

/-- The first empty line is that behind the header lines. -/
theorem strstr_block (lines : List Line) (r : List UInt8) :
    strstr (block lines ++ (blankLine ++ r)) blankLine = some (block lines).length := by
  induction lines with
  | nil =>
    rw [strstr_eq_some (by decide)]
    exact ⟨List.prefix_append _ _, fun j hj => absurd hj (Nat.not_lt_zero j)⟩
  | cons l lines ih =>
    obtain ⟨c, t, htext, hc⟩ := l.text_eq_cons
    have hcr : c ≠ chr '\r' := by
      rintro rfl
      revert hc
      decide
    have hskip : chr '\r' ∉ chr '\n' :: l.text := fun h =>
      (List.mem_cons.mp h).elim (by decide) l.oneLine_text.no_cr
    have hno : ¬ blankLine.isPrefixOf (chr '\r' :: (chr '\n' :: l.text ++
        (block lines ++ (blankLine ++ r)))) = true := by
      rw [htext, blankLine_eq]
      simp [Ne.symm hcr]
    rw [block_cons, List.cons_append, List.cons_append, List.append_assoc, ← List.cons_append,
      strstr, if_neg hno, blankLine_eq, strstr_skip hskip, ← blankLine_eq, ih]
    simp only [Option.map_some, List.length_cons, List.length_append]
    congr 1
    omega

theorem length_le_block (lines : List Line) : lines.length ≤ (block lines).length := by
  induction lines with
  | nil => exact Nat.le_refl _
  | cons l lines ih =>
    rw [block_cons]
    simp only [List.length_cons, List.length_append]
    omega

theorem strtok_first (l : Line) (lines : List Line) :
    strtok (text ":") (l.text ++ block lines) = some (l.name, some (l.rest ++ block lines)) := by
  have h : strtok (text ":") ([] ++ (l.name ++ (chr ':' :: l.rest ++ block lines))) =
      some (l.name, some (l.rest ++ block lines)) :=
    strtok_eq (by simp) (fun c hc hm => ?_) l.isToken.1 (by simp [text])
  · rw [Line.text, List.append_assoc]
    exact h
  · exact (l.isToken.2 c hc).2.1 (by simpa [text] using hm)

variable {msg : Msg} {r : List UInt8}

/-- Header lines that are complete are read as a whole. -/
theorem parseHeaders_lines (hoffset : 2 ≤ msg.parsingOffset)
    (hbuf : msg.buf.drop (msg.parsingOffset - 2) = block (l :: lines) ++ (blankLine ++ r)) :
    parseHeaders msg = .ok ({ msg with
      parsingOffset := msg.parsingOffset - 2 + (block (l :: lines)).length + 4
      headers := store msg.headers (readLines (l :: lines))
      hasHeaders := true }, true) := by
  have hfind : strstr (cstr (msg.buf.drop (msg.parsingOffset - 2))) (crlf ++ crlf) =
      some (block (l :: lines)).length := by
    rw [hbuf, cstr_append (zero_not_mem_block _), cstr_append (by decide)]
    exact strstr_block _ _
  have hlen : (block (l :: lines)).length = (l.text ++ block lines).length + 2 := rfl
  have hcopy : (msg.buf.drop msg.parsingOffset).take
      (msg.parsingOffset - 2 + (block (l :: lines)).length - msg.parsingOffset) =
        l.text ++ block lines := by
    have hdrop : msg.buf.drop msg.parsingOffset =
        (l.text ++ block lines) ++ (blankLine ++ r) := by
      rw [← Nat.sub_add_cancel hoffset, ← List.drop_drop, hbuf]
      rfl
    rw [hdrop, hlen, show msg.parsingOffset - 2 + ((l.text ++ block lines).length + 2) -
      msg.parsingOffset = (l.text ++ block lines).length by omega, List.take_left]
  have hfuel : lines.length < (l.text ++ block lines).length := by
    obtain ⟨c, t, htext, -⟩ := l.text_eq_cons
    have := length_le_block lines
    simp only [htext, List.length_append, List.length_cons]
    omega
  have hnext : ¬ msg.parsingOffset > msg.parsingOffset - 2 + (block (l :: lines)).length := by
    rw [hlen]
    omega
  rw [parseHeaders, if_neg (by omega), hfind]
  simp only [if_neg hnext, hcopy]
  rw [strtok_first, parseHeaderLoop_lines hfuel]
  rfl

/-- Header lines that are not complete are not read. -/
theorem parseHeaders_cut {cut : List UInt8} (hoffset : 2 ≤ msg.parsingOffset)
    (hbuf : msg.buf.drop (msg.parsingOffset - 2) = cut)
    (hcut : cut <+: block lines ++ blankLine) (hlt : cut.length < (block lines).length + 4) :
    parseHeaders msg = .ok (msg, false) := by
  obtain ⟨rest, hrest⟩ := hcut
  have h0 : 0 ∉ cut := fun h => by
    have : 0 ∈ block lines ++ blankLine := hrest ▸ List.mem_append_left _ h
    rcases List.mem_append.mp this with h | h
    · exact zero_not_mem_block _ h
    · revert h
      decide
  have hfull : strstr (cut ++ rest) blankLine = some (block lines).length := by
    have := strstr_block lines []
    rwa [List.append_nil, ← hrest] at this
  have hnone : strstr cut (crlf ++ crlf) = none := strstr_cut (by decide) hfull hlt
  rw [parseHeaders, if_neg (by omega), hbuf, cstr_eq h0, hnone]

end Libuo.HttpHeaders
