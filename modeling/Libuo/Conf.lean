import Libuo.HttpMsg
import Mathlib.Data.List.Induction

/-!
# Configuration files

`uo_conf_create` takes the text of a file apart with one cursor of `strtok`, in turn to the end of a
word for a key and to the end of a line for its value. The search for a value skips the ends of
lines, so that a key alone on its line takes the next line that is not empty.
-/

namespace Libuo

/-- `uo_conf`: the keys and their values, `NULL` given by `none`. -/
abbrev Conf := List (List UInt8 × Option (List UInt8))

namespace Conf
open CStrings CText
open HttpMsg (strings)

/-- `strtok` without a string: the token, and where the next one is searched for. -/
def next (delims : List UInt8) (saveptr : Option (List UInt8)) :
    Option (List UInt8) × Option (List UInt8) :=
  match saveptr.bind (strtok delims) with
  | some (token, saveptr) => (some token, saveptr)
  | none => (none, none)

def nextKey : Option (List UInt8) → Option (List UInt8) × Option (List UInt8) :=
  next (text "\r\n\t ")

def nextValue : Option (List UInt8) → Option (List UInt8) × Option (List UInt8) :=
  next (text "\r\n")

section
variable {α : Type} (set : α → List UInt8 → Option (List UInt8) → α)

/-- `while (key)` of `uo_conf_create`, for at most `fuel` tests and with any table. -/
def createLoop : ℕ → α → Option (List UInt8) × Option (List UInt8) → Option α
  | 0, _, _ => none
  | _ + 1, table, (none, _) => some table
  | fuel + 1, table, (some key, saveptr) =>
    let (value, saveptr) := nextValue saveptr
    createLoop fuel (set table key value) (nextKey saveptr)

/-- The loop over the text of a file, which a NUL ends. Each test but the last has taken a
character. -/
def readText (table : α) (content : List UInt8) : Option α :=
  createLoop set ((cstr content).length + 1) table (nextKey (some (cstr content)))

end

/-- `uo_conf_create`, with the content of the file if it can be read. -/
def create (file : Option (List UInt8)) : Option Conf :=
  file.bind (readText (OrderedMap.set strings) [])

def get (conf : Conf) (key : List UInt8) : Option (List UInt8) :=
  (OrderedMap.get strings conf key).join

/-- The keys and values that `uo_conf_create` sets, in order. -/
def calls (content : List UInt8) : Option Conf :=
  readText (fun l key value => l ++ [(key, value)]) [] content

def IsKey (key : List UInt8) : Prop :=
  key ≠ [] ∧ ∀ c ∈ key, c ≠ chr ' ' ∧ c ≠ chr '\t' ∧ c ≠ chr '\n'

instance (key : List UInt8) : Decidable (IsKey key) :=
  inferInstanceAs (Decidable (key ≠ [] ∧ ∀ c ∈ key, c ≠ chr ' ' ∧ c ≠ chr '\t' ∧ c ≠ chr '\n'))

/-- What is on a line. -/
inductive Content where
  | empty
  | alone (key : List UInt8)
  | pair (key : List UInt8) (space : UInt8) (value : List UInt8)

namespace Content

def bytes : Content → List UInt8
  | .empty => []
  | .alone key => key
  | .pair key space value => key ++ space :: value

def WellFormed : Content → Prop
  | .empty => True
  | .alone key => IsKey key
  | .pair key space value => IsKey key ∧ (space = chr ' ' ∨ space = chr '\t') ∧
      (∀ c ∈ value.head?, c ≠ chr ' ' ∧ c ≠ chr '\t') ∧ chr '\n' ∉ value

instance : (c : Content) → Decidable c.WellFormed
  | .empty => inferInstanceAs (Decidable True)
  | .alone key => inferInstanceAs (Decidable (IsKey key))
  | .pair key space value => inferInstanceAs (Decidable (IsKey key ∧
      (space = chr ' ' ∨ space = chr '\t') ∧
      (∀ c ∈ value.head?, c ≠ chr ' ' ∧ c ≠ chr '\t') ∧ chr '\n' ∉ value))

/-- The key of a line and its value. -/
def definition : Content → Option (List UInt8 × Option (List UInt8))
  | .empty => none
  | .alone key => some (key, none)
  | .pair key _ value => some (key, some value)

def IsAlone : Content → Prop
  | .alone _ => True
  | _ => False

/-- No carriage return and no NUL is on the line, and a value is not empty. -/
structure Plain (c : Content) : Prop where
  noReturn : chr '\r' ∉ c.bytes
  noNul : 0 ∉ c.bytes
  value : ∀ key, c.definition ≠ some (key, some [])

end Content

/-- A line with its end. A carriage return before the newline belongs to the end. -/
structure Line where
  content : Content
  crlf : Bool
  wellFormed : content.WellFormed
  last : crlf = false → content.bytes.getLast? ≠ some (chr '\r')

namespace Line

def eol (l : Line) : List UInt8 := if l.crlf then text "\r\n" else text "\n"

def bytes (l : Line) : List UInt8 := l.content.bytes ++ l.eol

end Line

def block (lines : List Line) : List UInt8 := lines.flatMap Line.bytes

def definitions (lines : List Line) : Conf := lines.filterMap (·.content.definition)

/-- The value on the last line with a key. -/
def lastValue (lines : List Line) (key : List UInt8) : Option (List UInt8) :=
  ((definitions lines).reverse.find? (·.1 = key)).bind Prod.snd

/-- Each line defines what is on it and nothing else is defined, and then a key has the value on its
last line. -/
structure ReadsLines (lines : List Line) : Prop where
  calls : calls (block lines) = some (definitions lines)
  get : ∃ conf, create (some (block lines)) = some conf ∧ ∀ key, get conf key = lastValue lines key

/-- All lines are plain, and behind a key alone they are empty. -/
structure Separate (lines : List Line) : Prop where
  plain : ∀ l ∈ lines, l.content.Plain
  alone : lines.Pairwise fun l l' => l.content.IsAlone → l'.content = .empty

variable {delims l r s t key value : List UInt8} {c d : UInt8} {fuel : ℕ}
  {saveptr : Option (List UInt8)} {lines : List Line}

theorem next_none (delims : List UInt8) : next delims none = (none, none) := rfl

/-- Without a token the search is over. -/
theorem next_over (h : (next delims saveptr).1 = none) : next delims saveptr = (none, none) := by
  rw [next] at h ⊢
  split at h
  · cases h
  · rfl

theorem next_skip (hl : ∀ c ∈ l, c ∈ delims) (s : List UInt8) :
    next delims (some (l ++ s)) = next delims (some s) := by
  have hdrop : (l ++ s).dropWhile (delims.contains ·) = s.dropWhile (delims.contains ·) :=
    List.dropWhile_append_of_pos fun c hc => by simpa using hl c hc
  simp only [next, Option.bind_some, strtok, hdrop]

theorem next_token (hs : ∀ c ∈ s, c ∉ delims) (hne : s ≠ []) (hd : d ∈ delims) (r : List UInt8) :
    next delims (some (s ++ d :: r)) = (some s, some r) := by
  have htok := strtok_eq (l := []) (r := d :: r) (by simp) hs hne (by simpa using hd)
  rw [List.nil_append] at htok
  simp only [next, Option.bind_some, htok]
  rfl

/-- A token is a part of what is left, without delimiters, and the next search starts behind it. -/
theorem next_spec (delims : List UInt8) (saveptr : Option (List UInt8)) :
    next delims saveptr = (none, none) ∨ ∃ l t r, saveptr.getD [] = l ++ (t ++ r) ∧ t ≠ [] ∧
      (∀ c ∈ t, c ∉ delims) ∧ next delims saveptr = (some t, r.tail?) := by
  cases saveptr with
  | none => exact .inl rfl
  | some s =>
    cases hdrop : s.dropWhile (delims.contains ·) with
    | nil => exact .inl (by simp only [next, Option.bind_some, strtok, hdrop])
    | cons c s' =>
      have hc : delims.contains c = false := by
        have := List.head_dropWhile_not (delims.contains ·) (l := s) (by rw [hdrop]; simp)
        simpa only [hdrop, List.head_cons] using this
      refine .inr ⟨s.takeWhile (delims.contains ·), (c :: s').takeWhile (!delims.contains ·),
        (c :: s').dropWhile (!delims.contains ·), ?_, ?_, ?_, ?_⟩
      · rw [List.takeWhile_append_dropWhile, ← hdrop, List.takeWhile_append_dropWhile]
        rfl
      · rw [List.takeWhile_cons_of_pos (by rw [hc]; rfl)]
        exact List.cons_ne_nil _ _
      · intro d hd
        simpa using List.mem_takeWhile_imp hd
      · simp only [next, Option.bind_some, strtok, hdrop]

/-- A function that goes with the settings goes with the loop. -/
theorem createLoop_map {α β : Type} {set : α → List UInt8 → Option (List UInt8) → α}
    {set' : β → List UInt8 → Option (List UInt8) → β} {f : α → β}
    (h : ∀ table key value, f (set table key value) = set' (f table) key value) (fuel : ℕ)
    (table : α) (start : Option (List UInt8) × Option (List UInt8)) :
    createLoop set' fuel (f table) start = (createLoop set fuel table start).map f := by
  induction fuel generalizing table start with
  | zero => rfl
  | succ fuel ih =>
    obtain ⟨_ | key, saveptr⟩ := start
    · rfl
    · cases hvalue : nextValue saveptr with
      | mk value rest =>
        simp only [createLoop, hvalue, ← h]
        exact ih _ _

/-- What the loop sets. -/
def record (fuel : ℕ) (start : Option (List UInt8) × Option (List UInt8)) : Option Conf :=
  createLoop (fun l key value => l ++ [(key, value)]) fuel [] start

theorem record_succ (fuel : ℕ) (key : List UInt8) (saveptr : Option (List UInt8)) :
    record (fuel + 1) (some key, saveptr) =
      (record fuel (nextKey (nextValue saveptr).2)).map ((key, (nextValue saveptr).1) :: ·) := by
  rw [record, createLoop]
  exact createLoop_map (f := ((key, (nextValue saveptr).1) :: ·))
    (fun l key value => (List.cons_append).symm) fuel [] _

theorem createLoop_eq {α : Type} (set : α → List UInt8 → Option (List UInt8) → α) (fuel : ℕ)
    (table : α) (start : Option (List UInt8) × Option (List UInt8)) :
    createLoop set fuel table start =
      (record fuel start).map (·.foldl (fun table e => set table e.1 e.2) table) :=
  createLoop_map (f := fun l : Conf => l.foldl (fun table e => set table e.1 e.2) table)
    (fun l key value => by rw [List.foldl_append]; rfl) fuel [] start

theorem length_next_le (delims : List UInt8) (saveptr : Option (List UInt8)) :
    ((next delims saveptr).2.getD []).length ≤ (saveptr.getD []).length := by
  obtain h | ⟨l, t, r, hs, -, -, h⟩ := next_spec delims saveptr
  · rw [h]
    exact Nat.zero_le _
  · rw [h, hs, ← List.tail_eq_tail?, List.length_tail, List.length_append, List.length_append]
    omega

theorem length_next_lt (h : (next delims saveptr).1 = some t) :
    ((next delims saveptr).2.getD []).length < (saveptr.getD []).length := by
  obtain hnone | ⟨l, t', r, hs, hne, -, hnext⟩ := next_spec delims saveptr
  · rw [hnone] at h
    cases h
  · have := List.length_pos_of_ne_nil hne
    rw [hnext, hs, ← List.tail_eq_tail?, List.length_tail, List.length_append, List.length_append]
    omega

/-- Each key shortens what is left. -/
theorem exists_record (saveptr : Option (List UInt8)) (h : (saveptr.getD []).length < fuel) :
    ∃ l, record fuel (nextKey saveptr) = some l := by
  induction fuel generalizing saveptr with
  | zero => exact absurd h (Nat.not_lt_zero _)
  | succ fuel ih =>
    obtain ⟨start, hstart⟩ : ∃ start, start = nextKey saveptr := ⟨_, rfl⟩
    obtain ⟨_ | key, rest⟩ := start
    · exact ⟨[], by rw [← hstart]; rfl⟩
    · have hlt := length_next_lt (congrArg Prod.fst hstart).symm
      have hle := length_next_le (text "\r\n") rest
      change ((nextKey saveptr).2.getD []).length < _ at hlt
      rw [← hstart] at hlt
      obtain ⟨l, hl⟩ := ih (nextValue rest).2
        (hle.trans_lt (by change (rest.getD []).length < _ at hlt; omega))
      exact ⟨_, by rw [← hstart, record_succ, hl]; rfl⟩

/-- Every file is read to its end. -/
theorem exists_create (content : List UInt8) : ∃ conf, create (some content) = some conf := by
  obtain ⟨l, hl⟩ := exists_record (some (cstr content)) (Nat.lt_succ_self _)
  exact ⟨_, by rw [create, Option.bind_some, readText, createLoop_eq]; exact congrArg _ hl⟩

theorem mem_value_delims : c ∈ text "\r\n" ↔ c = chr '\r' ∨ c = chr '\n' := by
  simp [text]

theorem mem_key_delims :
    c ∈ text "\r\n\t " ↔ c = chr '\r' ∨ c = chr '\n' ∨ c = chr '\t' ∨ c = chr ' ' := by
  simp [text]

theorem IsKey.not_mem (h : IsKey key) (hr : chr '\r' ∉ key) : ∀ c ∈ key, c ∉ text "\r\n\t " := by
  intro c hc hmem
  obtain ⟨hspace, htab, hnewline⟩ := h.2 c hc
  rw [mem_key_delims] at hmem
  obtain rfl | hother := hmem
  · exact hr hc
  · tauto

/-- An end of a line is a delimiter, and more delimiters. -/
theorem Line.eol_eq (l : Line) :
    ∃ c r, l.eol = c :: r ∧ c ∈ text "\r\n" ∧ ∀ c ∈ r, c ∈ text "\r\n" := by
  rw [Line.eol]
  split
  · exact ⟨chr '\r', [chr '\n'], rfl, by decide, by decide⟩
  · exact ⟨chr '\n', [], rfl, by decide, by simp⟩

theorem Line.zero_not_mem_bytes {l : Line} (h : 0 ∉ l.content.bytes) : 0 ∉ l.bytes := by
  rw [Line.bytes, List.mem_append, not_or]
  refine ⟨h, ?_⟩
  rw [Line.eol]
  split <;> decide

theorem key_delims (h : c ∈ text "\r\n") : c ∈ text "\r\n\t " := by
  rw [mem_value_delims] at h
  rw [mem_key_delims]
  tauto

theorem nextKey_empty {l : Line} (hl : l.content = .empty) (s : List UInt8) :
    nextKey (some (l.bytes ++ s)) = nextKey (some s) := by
  obtain ⟨c, r, heol, hc, hr⟩ := l.eol_eq
  rw [Line.bytes, hl, heol]
  exact next_skip (l := c :: r) (by
    rintro d (_ | ⟨_, hd⟩)
    · exact key_delims hc
    · exact key_delims (hr d hd)) s

/-- A key alone takes for its value what the search finds on the lines behind it. -/
theorem record_alone {l : Line} (hl : l.content = .alone key) (hplain : l.content.Plain)
    (fuel : ℕ) (s : List UInt8) : record (fuel + 1) (nextKey (some (l.bytes ++ s))) =
      (record fuel (nextKey (nextValue (some s)).2)).map ((key, (nextValue (some s)).1) :: ·) := by
  obtain ⟨c, r, heol, hc, hr⟩ := l.eol_eq
  have hkey : (Content.alone key).WellFormed := hl ▸ l.wellFormed
  have hreturn : chr '\r' ∉ (Content.alone key).bytes := hl ▸ hplain.noReturn
  have hfirst : nextKey (some (l.bytes ++ s)) = (some key, some (r ++ s)) := by
    rw [Line.bytes, hl, heol, Content.bytes, List.append_assoc, List.cons_append]
    exact next_token (hkey.not_mem hreturn) hkey.1 (key_delims hc) (r ++ s)
  have hskip : nextValue (some (r ++ s)) = nextValue (some s) := next_skip hr s
  rw [hfirst, record_succ, hskip]

theorem record_pair {l : Line} (hl : l.content = .pair key c value) (hplain : l.content.Plain)
    (fuel : ℕ) (s : List UInt8) : record (fuel + 1) (nextKey (some (l.bytes ++ s))) =
      (record fuel (nextKey (some s))).map ((key, some value) :: ·) := by
  obtain ⟨d, r, heol, hd, hr⟩ := l.eol_eq
  obtain ⟨hkey, hspace, -, hnewline⟩ : (Content.pair key c value).WellFormed := hl ▸ l.wellFormed
  have hreturn : chr '\r' ∉ (Content.pair key c value).bytes := hl ▸ hplain.noReturn
  rw [Content.bytes, List.mem_append, List.mem_cons, not_or, not_or] at hreturn
  have hne : value ≠ [] := by
    rintro rfl
    exact hplain.value key (by rw [hl]; rfl)
  have hvalue : ∀ e ∈ value, e ∉ text "\r\n" := by
    intro e he hmem
    obtain rfl | rfl := mem_value_delims.mp hmem
    · exact hreturn.2.2 he
    · exact hnewline he
  have hc : c ∈ text "\r\n\t " := by
    rw [mem_key_delims]
    tauto
  have hfirst : nextKey (some (l.bytes ++ s)) = (some key, some (value ++ d :: (r ++ s))) := by
    rw [Line.bytes, hl, heol, Content.bytes, List.append_assoc, List.append_assoc]
    exact next_token (hkey.not_mem hreturn.1) hkey.1 hc _
  have hsecond : nextValue (some (value ++ d :: (r ++ s))) = (some value, some (r ++ s)) :=
    next_token hvalue hne hd (r ++ s)
  have hskip : nextKey (some (r ++ s)) = nextKey (some s) :=
    next_skip (fun e he => key_delims (hr e he)) s
  rw [hfirst, record_succ, hsecond]
  simp only [hskip]

theorem definitions_eq_nil : definitions lines = [] ↔ ∀ l ∈ lines, l.content = .empty := by
  rw [definitions, List.filterMap_eq_nil_iff]
  refine forall₂_congr fun l _ => ?_
  cases l.content <;> simp [Content.definition]

theorem Content.plain_empty : Content.empty.Plain :=
  ⟨List.not_mem_nil, List.not_mem_nil, fun _ h => by cases h⟩

theorem separate_of_empty (h : ∀ l ∈ lines, l.content = .empty) : Separate lines where
  plain l hl := h l hl ▸ Content.plain_empty
  alone := List.pairwise_of_forall_mem_list fun _ _ l' hl' _ => h l' hl'

theorem separate_cons {l : Line} : Separate (l :: lines) ↔ l.content.Plain ∧
    (l.content.IsAlone → ∀ l' ∈ lines, l'.content = .empty) ∧ Separate lines := by
  constructor
  · intro h
    obtain ⟨halone, hrest⟩ := List.pairwise_cons.mp h.alone
    exact ⟨h.plain l (.head _), fun hl l' hl' => halone l' hl' hl,
      ⟨fun l' hl' => h.plain l' (.tail _ hl'), hrest⟩⟩
  · rintro ⟨hplain, halone, hrest⟩
    refine ⟨?_, List.pairwise_cons.mpr ⟨fun l' hl' hl => halone hl l' hl', hrest.alone⟩⟩
    rintro l' (_ | ⟨_, hl'⟩)
    · exact hplain
    · exact hrest.plain l' hl'

theorem block_cons (l : Line) (lines : List Line) :
    block (l :: lines) = l.bytes ++ block lines := rfl

/-- On empty lines there is no token. -/
theorem next_block (hdelims : ∀ c ∈ text "\r\n", c ∈ delims) (h : ∀ l ∈ lines, l.content = .empty) :
    next delims (some (block lines)) = (none, none) := by
  have hblock : ∀ c ∈ block lines, c ∈ delims := by
    intro c hc
    obtain ⟨l, hl, hc⟩ := List.mem_flatMap.mp hc
    obtain ⟨d, r, heol, hd, hr⟩ := l.eol_eq
    rw [Line.bytes, h l hl, heol] at hc
    obtain rfl | hc := List.mem_cons.mp hc
    · exact hdelims c hd
    · exact hdelims c (hr c hc)
  have hskip := next_skip hblock []
  rw [List.append_nil] at hskip
  exact hskip

theorem record_none (h : 0 < fuel) (saveptr : Option (List UInt8)) :
    record fuel (none, saveptr) = some [] := by
  obtain ⟨fuel, rfl⟩ := Nat.exists_eq_succ_of_ne_zero (Nat.ne_of_gt h)
  rfl

/-- Separate lines are read one after the other. -/
theorem record_lines (h : Separate lines) (hfuel : (block lines).length < fuel) :
    record fuel (nextKey (some (block lines))) = some (definitions lines) := by
  induction lines generalizing fuel with
  | nil => exact record_none (by omega) _
  | cons l lines ih =>
    obtain ⟨hplain, halone, hrest⟩ := separate_cons.mp h
    obtain ⟨c, r, heol, -⟩ := l.eol_eq
    have hpos : 0 < l.bytes.length := by
      rw [Line.bytes, heol, List.length_append, List.length_cons]
      omega
    obtain ⟨fuel, rfl⟩ := Nat.exists_eq_succ_of_ne_zero (by omega : fuel ≠ 0)
    rw [block_cons, List.length_append] at hfuel
    rw [block_cons, definitions, List.filterMap_cons]
    cases hl : l.content with
    | empty =>
      rw [nextKey_empty hl]
      exact ih hrest (by omega)
    | alone key =>
      have hempty : ∀ l' ∈ lines, l'.content = .empty := halone (by rw [hl]; trivial)
      have hover : nextValue (some (block lines)) = (none, none) := next_block (fun _ => id) hempty
      have hnil : lines.filterMap (·.content.definition) = [] := definitions_eq_nil.mpr hempty
      rw [record_alone hl hplain, hover, hnil]
      change (record fuel (nextKey none)).map _ = _
      rw [nextKey, next_none, record_none (by omega)]
      rfl
    | pair key c value =>
      rw [record_pair hl hplain, ih hrest (by omega)]
      rfl

/-- A token of a string without NUL. -/
theorem next_clean (hdelims : chr '\r' ∈ delims) (h0 : 0 ∉ saveptr.getD [])
    (h : (next delims saveptr).1 = some t) : chr '\r' ∉ t ∧ 0 ∉ t ∧ t ≠ [] := by
  obtain hnone | ⟨l, t', r, hs, hne, ht, hnext⟩ := next_spec delims saveptr
  · rw [hnone] at h
    cases h
  · rw [hnext] at h
    obtain rfl := Option.some.inj h
    simp only [hs, List.mem_append, not_or] at h0
    exact ⟨fun hr => ht _ hr hdelims, h0.2.1, hne⟩

theorem next_rest (h0 : 0 ∉ saveptr.getD []) : 0 ∉ (next delims saveptr).2.getD [] := by
  obtain hnone | ⟨l, t, r, hs, -, -, hnext⟩ := next_spec delims saveptr
  · rw [hnone]
    exact List.not_mem_nil
  · simp only [hs, List.mem_append, not_or] at h0
    rw [hnext, ← List.tail_eq_tail?]
    exact fun hr => h0.2.2 (List.mem_of_mem_tail hr)

/-- The first key that is set has no carriage return and no NUL, nor has its value, which is not
empty. -/
theorem record_cons (h0 : 0 ∉ s) {v : Option (List UInt8)} {more : Conf}
    (h : record fuel (nextKey (some s)) = some ((key, v) :: more)) :
    (chr '\r' ∉ key ∧ 0 ∉ key) ∧ ∀ value ∈ v, chr '\r' ∉ value ∧ 0 ∉ value ∧ value ≠ [] := by
  cases fuel with
  | zero => cases h
  | succ fuel =>
    have hrest : 0 ∉ (nextKey (some s)).2.getD [] := next_rest h0
    cases hstart : nextKey (some s) with
    | mk first saveptr =>
      rw [hstart] at h hrest
      cases first with
      | none => cases h
      | some first =>
        rw [record_succ] at h
        obtain ⟨tail, -, htail⟩ := Option.map_eq_some_iff.mp h
        obtain ⟨⟨rfl, rfl⟩, -⟩ : (first = key ∧ (nextValue saveptr).1 = v) ∧ tail = more := by
          simpa using htail
        have hs : 0 ∉ (some s).getD [] := h0
        obtain ⟨hreturn, hzero, -⟩ := next_clean (by decide : chr '\r' ∈ text "\r\n\t ") hs
          (congrArg Prod.fst hstart)
        exact ⟨⟨hreturn, hzero⟩, fun value hvalue => next_clean (by decide) hrest hvalue⟩

/-- A line that is read with those behind it is plain. -/
theorem plain_of_record {l : Line} (h : record fuel (nextKey (some (cstr (block (l :: lines))))) =
    some (definitions (l :: lines))) : l.content.Plain := by
  have hzero : 0 ∉ cstr (block (l :: lines)) := zero_not_mem_cstr _
  cases hl : l.content with
  | empty => exact Content.plain_empty
  | alone key =>
    rw [definitions, List.filterMap_cons_some (by rw [hl]; rfl)] at h
    obtain ⟨⟨hreturn, h0⟩, -⟩ := record_cons hzero h
    exact ⟨hreturn, h0, fun key heq => by cases heq⟩
  | pair key c value =>
    rw [definitions, List.filterMap_cons_some (by rw [hl]; rfl)] at h
    obtain ⟨⟨hkey, hkey0⟩, hrest⟩ := record_cons hzero h
    obtain ⟨hvalue, hvalue0, hne⟩ := hrest value rfl
    have hspace : c ≠ chr '\r' ∧ c ≠ 0 := by
      have hwellFormed : (Content.pair key c value).WellFormed := hl ▸ l.wellFormed
      obtain rfl | rfl := hwellFormed.2.1 <;> decide
    refine ⟨?_, ?_, fun key' heq => hne (by cases heq; rfl)⟩
    · rw [Content.bytes, List.mem_append, List.mem_cons, not_or, not_or]
      exact ⟨hkey, hspace.1.symm, hvalue⟩
    · rw [Content.bytes, List.mem_append, List.mem_cons, not_or, not_or]
      exact ⟨hkey0, hspace.2.symm, hvalue0⟩

/-- When the search for the value of a key is over, nothing more is set. -/
theorem empty_of_record_over (hover : nextValue saveptr = (none, none))
    (h : record fuel (nextKey (nextValue saveptr).2) = some (definitions lines)) :
    ∀ l ∈ lines, l.content = .empty := by
  refine definitions_eq_nil.mp ?_
  cases fuel with
  | zero => cases h
  | succ fuel =>
    rw [hover] at h
    exact (Option.some.inj h).symm

/-- Lines that are read one after the other are separate. -/
theorem separate_of_record (h : record fuel (nextKey (some (cstr (block lines)))) =
    some (definitions lines)) : Separate lines := by
  induction lines generalizing fuel with
  | nil => exact separate_of_empty fun l hl => by cases hl
  | cons l lines ih =>
    have hplain := plain_of_record h
    have hcstr : cstr (block (l :: lines)) = l.bytes ++ cstr (block lines) :=
      cstr_append (Line.zero_not_mem_bytes hplain.noNul) _
    rw [hcstr, definitions] at h
    rw [separate_cons]
    cases hl : l.content with
    | empty =>
      rw [nextKey_empty hl, List.filterMap_cons_none (by rw [hl]; rfl)] at h
      exact ⟨Content.plain_empty, False.elim, ih h⟩
    | alone key =>
      rw [List.filterMap_cons_some (by rw [hl]; rfl)] at h
      cases fuel with
      | zero => cases h
      | succ fuel =>
        rw [record_alone hl hplain] at h
        obtain ⟨more, hmore, heq⟩ := Option.map_eq_some_iff.mp h
        obtain ⟨hpair, rfl⟩ := List.cons.inj heq
        have hover : nextValue (some (cstr (block lines))) = (none, none) :=
          next_over (Prod.mk.inj hpair).2
        have hempty := empty_of_record_over hover hmore
        exact ⟨hl ▸ hplain, fun _ => hempty, separate_of_empty hempty⟩
    | pair key c value =>
      rw [List.filterMap_cons_some (by rw [hl]; rfl)] at h
      cases fuel with
      | zero => cases h
      | succ fuel =>
        rw [record_pair hl hplain] at h
        obtain ⟨more, hmore, heq⟩ := Option.map_eq_some_iff.mp h
        obtain ⟨-, rfl⟩ := List.cons.inj heq
        exact ⟨hl ▸ hplain, False.elim, ih hmore⟩

/-- The last value that has been set for a key. -/
theorem get_foldl (l : Conf) (key : List UInt8) :
    OrderedMap.get strings (l.foldl (fun table e => OrderedMap.set strings table e.1 e.2) []) key =
      (l.reverse.find? (·.1 = key)).map Prod.snd := by
  induction l using List.reverseRecOn with
  | nil => rfl
  | append_singleton l e ih =>
    rw [List.foldl_append, List.reverse_append, List.foldl_cons, List.foldl_nil,
      OrderedMap.get_set, ih, List.reverse_singleton, List.singleton_append, List.find?_cons]
    by_cases he : e.1 = key <;> simp [strings, he]

/-- The table has the last of the values that are set. -/
theorem get_create {content : List UInt8} {l : Conf} (h : calls content = some l) :
    ∃ conf, create (some content) = some conf ∧
      ∀ key, get conf key = (l.reverse.find? (·.1 = key)).bind Prod.snd := by
  have hcreate : create (some content) =
      (calls content).map (·.foldl (fun table e => OrderedMap.set strings table e.1 e.2) []) :=
    createLoop_eq _ _ _ _
  refine ⟨_, by rw [hcreate, h]; rfl, fun key => ?_⟩
  rw [get, get_foldl]
  cases l.reverse.find? (·.1 = key) <;> rfl

/-- A file is read line by line if and only if its lines are separate. -/
theorem readsLines_iff (lines : List Line) : ReadsLines lines ↔ Separate lines := by
  constructor
  · exact fun h => separate_of_record h.calls
  · intro h
    have h0 : 0 ∉ block lines := by
      intro h0
      obtain ⟨l, hl, h0⟩ := List.mem_flatMap.mp h0
      exact Line.zero_not_mem_bytes (h.plain l hl).noNul h0
    have hcalls : calls (block lines) = some (definitions lines) := by
      rw [calls, readText, cstr_eq h0]
      exact record_lines h (Nat.lt_succ_self _)
    exact ⟨hcalls, get_create hcalls⟩

/-- A key alone has taken the line behind it for its value. -/
theorem not_readsLines_alone : ¬ ReadsLines
    [⟨.alone (text "a"), false, by decide, by decide⟩,
      ⟨.pair (text "b") (chr ' ') (text "1"), false, by decide, by decide⟩] := by
  intro h
  obtain ⟨conf, hcreate, hget⟩ := h.get
  have hconf : some conf = some [(text "a", some (text "b 1"))] :=
    hcreate.symm.trans (by decide +kernel)
  rw [Option.some.inj hconf] at hget
  exact absurd (hget (text "a")) (by decide +kernel)

end Conf

end Libuo
