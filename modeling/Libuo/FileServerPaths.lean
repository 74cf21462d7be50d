import Libuo.Buffers
import Libuo.FileServerSpace
import Libuo.UriDecode

/-!
# The files of a file server

Which file is opened for a URI, and when it is one of the base directory. Nothing is checked: the
name of the directory is followed by what the URI decodes to.
-/

namespace Libuo.FileServer
open CStrings CText OrderedMap Interleaving UriDecode

variable (junk : ℕ → UInt8)

/-- The name that `uo_http_file_server_serve` makes in `filename_buf`. When the buffer is moved
for the URI, `p` points to the block it has left, and what is stored there is not defined. The
character before an empty URI is the space of the request line. -/
def fileName (dirname uri : List UInt8) : Option (List UInt8) := do
  let filenameBuf ← (Buf.alloc junk 0x100).memcpyAppend junk dirname
  let p := filenameBuf.ptr
  let size := filenameBuf.getSize
  let filenameBuf ← filenameBuf.memcpyAppend junk uri
  guard (filenameBuf.getSize = size)
  let decoded := uriDecode uri
  let filenameBuf ← filenameBuf.store p decoded
  let filenameBuf ←
    if uri.getLast? = some (chr '/') then filenameBuf.memcpyAppend junk (text "index.html" ++ [0])
    else filenameBuf.store (p + decoded.length) [0]
  some (cstr filenameBuf.data)

/-- What follows the name of the directory. Before `index.html` are also the characters of the URI
that the shorter decoded text has left over. -/
def relative (uri : List UInt8) : List UInt8 :=
  if uri.getLast? = some (chr '/') then
    cstr (uriDecode uri ++ (uri.drop (uriDecode uri).length ++ text "index.html"))
  else cstr (uriDecode uri)

/-- No doubling of the buffer is needed for the URI. -/
def Fits (dirname uri : List UInt8) : Prop :=
  ∀ k, dirname.length < 0x100 * 2 ^ k → dirname.length + uri.length < 0x100 * 2 ^ k

/-- The characters of a URI as such have a segment of two dots among those left over. -/
def LeftOver (uri : List UInt8) : Prop :=
  uri.getLast? = some (chr '/') ∧ ¬ text "%00" <:+: uri ∧
    DotDot (uri.drop (uriDecode uri).length)

/-- The buffer is not moved, the URI starts with a slash or the directory ends with one, and the
URI has no segment of two dots before its first encoded NUL, where slashes and dots may be
encoded. -/
structure Harmless (dirname uri : List UInt8) : Prop where
  fits : Fits dirname uri
  slash : cut uri = [] ∨ (∃ a ∈ slashes, a <+: uri) ∨ dirname.getLast? = some (chr '/')
  noDotDot : ¬ EncodedDotDot (cut uri)
  noLeftOver : ¬ LeftOver uri

/-- A path below a directory. -/
def Inside (dirname path : List UInt8) : Prop :=
  ∃ rel, path = dirname ++ rel ∧ ¬ DotDot rel ∧
    (rel = [] ∨ text "/" <+: rel ∨ dirname.getLast? = some (chr '/'))

variable {junk} {dirname uri : List UInt8}

theorem dirname_spec (junk : ℕ → UInt8) (dirname uri : List UInt8) :
    ∃ b, (Buf.alloc junk 0x100).memcpyAppend junk dirname = some b ∧ b.Valid ∧
      b.content = dirname ∧ b.ptr = dirname.length ∧
      (Fits dirname uri ↔ dirname.length + uri.length < b.getSize) := by
  have halloc : (Buf.alloc junk 0x100).getSize = 0x100 := by simp [Buf.alloc, Buf.getSize]
  have hptr : (Buf.alloc junk 0x100).ptr = 0 := rfl
  obtain ⟨b, hb, hvalid, hcontent, hp, -⟩ :=
    Buf.memcpyAppend_spec junk (Buf.alloc_valid junk (by decide : 0 < 0x100)) dirname
  obtain ⟨k, hsize, hroom, hleast⟩ := Buf.getSize_memcpyAppend hb
  rw [halloc] at hsize hleast
  rw [hptr, Nat.zero_add] at hp hroom hleast
  have hempty : (Buf.alloc junk 0x100).content = [] := List.take_zero
  refine ⟨b, hb, hvalid, by rw [hcontent, hempty, List.nil_append], hp, ?_⟩
  constructor
  · intro h
    exact hsize ▸ h k (hsize ▸ hroom)
  · intro h j hj
    have hkj : k ≤ j := by
      by_contra hlt
      exact absurd (hleast j (Nat.lt_of_not_le hlt)) (Nat.not_le_of_lt hj)
    exact h.trans_le (hsize ▸ Nat.mul_le_mul_left _ (Nat.pow_le_pow_right (by decide) hkj))

theorem fileName_none (h : ¬ Fits dirname uri) : fileName junk dirname uri = none := by
  obtain ⟨b, hb, hvalid, hcontent, hp, hfits⟩ := dirname_spec junk dirname uri
  obtain ⟨b₁, hb₁, hvalid₁, -, hp₁, -⟩ := Buf.memcpyAppend_spec junk hvalid uri
  have hroom := (Buf.getSize_memcpyAppend hb₁).choose_spec.2.1
  have hmoved : b₁.getSize ≠ b.getSize := by
    intro he
    rw [hfits, ← hp] at h
    exact h (he ▸ hroom)
  simp [fileName, hb, hb₁, hmoved]

theorem fileName_some (hdirname : 0 ∉ dirname) (h : Fits dirname uri) :
    fileName junk dirname uri = some (dirname ++ relative uri) := by
  obtain ⟨b, hb, hvalid, hcontent, hp, hfits⟩ := dirname_spec junk dirname uri
  obtain ⟨b₁, hb₁, hvalid₁, hcontent₁, hp₁, -⟩ := Buf.memcpyAppend_spec junk hvalid uri
  have hstay : b₁.getSize = b.getSize := by
    obtain ⟨k, hsize, -, hleast⟩ := Buf.getSize_memcpyAppend hb₁
    cases k with
    | zero => rw [hsize, pow_zero, Nat.mul_one]
    | succ k =>
      have hle := hleast 0 (Nat.succ_pos k)
      have hlt := hfits.mp h
      omega
  have hle := length_uriDecode_le uri
  rw [hcontent] at hcontent₁
  rw [hp] at hp₁
  obtain ⟨rest, hdata₁⟩ : ∃ rest, b₁.data = dirname ++ (uri ++ rest) :=
    ⟨b₁.data.drop b₁.ptr, by
      rw [← List.append_assoc, ← hcontent₁]
      exact (List.take_append_drop _ _).symm⟩
  have hptr := hvalid₁.ptr_le
  obtain ⟨b₂, hb₂, hp₂, hsize₂, hdata₂⟩ := Buf.store_spec b₁ b.ptr (uriDecode uri) (by omega)
  rw [hdata₁, hp, List.take_left, List.append_assoc, ← List.drop_drop, List.drop_left,
    List.drop_append_of_le_length hle] at hdata₂
  have hstart : fileName junk dirname uri =
      (if uri.getLast? = some (chr '/') then b₂.memcpyAppend junk (text "index.html" ++ [0])
        else b₂.store (b.ptr + (uriDecode uri).length) [0]).map fun b => cstr b.data := by
    simp only [fileName, hb, hb₁, hstay, hb₂, guard_true, Option.bind_eq_bind, Option.pure_def,
      Option.bind_some]
    split <;> exact Option.map_eq_bind.symm
  rw [hstart, relative]
  split
  · have hvalid₂ : b₂.Valid := ⟨hsize₂ ▸ hvalid₁.size_pos, hp₂ ▸ hsize₂ ▸ hvalid₁.ptr_le⟩
    have hcontent₂ : b₂.content =
        dirname ++ (uriDecode uri ++ uri.drop (uriDecode uri).length) := by
      rw [Buf.content, hdata₂, hp₂, hp₁, ← List.append_assoc (uriDecode uri), ← List.append_assoc]
      refine List.take_left' ?_
      simp only [List.length_append, List.length_drop]
      omega
    obtain ⟨b₃, hb₃, -, hcontent₃, -⟩ := Buf.memcpyAppend_spec junk hvalid₂
      (text "index.html" ++ [0])
    have hdata₃ : b₃.data = dirname ++ (uriDecode uri ++ (uri.drop (uriDecode uri).length ++
        text "index.html") ++ 0 :: b₃.data.drop b₃.ptr) := by
      conv_lhs => rw [← List.take_append_drop b₃.ptr b₃.data]
      change b₃.content ++ _ = _
      rw [hcontent₃, hcontent₂]
      simp only [List.append_assoc, List.singleton_append]
    rw [hb₃, Option.map_some, hdata₃, cstr_append hdirname, cstr_append_zero]
  · have hend : b.ptr + (uriDecode uri).length + [(0 : UInt8)].length ≤ b₂.getSize := by
      have hlt := hfits.mp h
      rw [List.length_singleton]
      omega
    obtain ⟨b₃, hb₃, -, -, hdata₃⟩ := Buf.store_spec b₂ _ [0] hend
    rw [hdata₂, hp, ← List.append_assoc dirname, List.take_left' List.length_append] at hdata₃
    rw [hb₃, Option.map_some, hdata₃]
    simp only [List.append_assoc, List.singleton_append]
    rw [cstr_append hdirname, cstr_append_zero]

theorem not_dotDot_nil : ¬ DotDot [] := by decide +kernel

theorem dotDot_append_slash (l : List UInt8) : DotDot (l ++ [chr '/']) ↔ DotDot l := by
  rw [dotDot_append, or_iff_left not_dotDot_nil]

theorem dotDot_append_index (l : List UInt8) (hl : l = [] ∨ l.getLast? = some (chr '/')) :
    DotDot (l ++ text "index.html") ↔ DotDot l := by
  have hindex : ¬ DotDot (text "index.html") := by decide +kernel
  rcases hl with rfl | hl
  · exact iff_of_false hindex not_dotDot_nil
  · obtain ⟨l, rfl⟩ := List.getLast?_eq_some_iff.mp hl
    rw [dotDot_append_slash, List.append_assoc, List.singleton_append, dotDot_append,
      or_iff_left hindex]

/-- A path that a URI leads to has a segment of two dots if the URI has an encoded one, or a plain
one among the characters left over. -/
theorem dotDot_relative (huri : 0 ∉ uri) :
    DotDot (relative uri) ↔ EncodedDotDot (cut uri) ∨ LeftOver uri := by
  rw [relative, LeftOver, ← dotDot_uriDecode]
  split
  · rename_i hlast
    by_cases hnul : text "%00" <:+: uri
    · -- the path ends at the NUL
      obtain ⟨l, r, hl⟩ := List.append_of_mem ((zero_mem_uriDecode huri).mpr hnul)
      have hcut (rest : List UInt8) : cstr (uriDecode uri ++ rest) = uriDecode (cut uri) := by
        rw [← cstr_uriDecode huri, hl, List.append_assoc, List.cons_append, cstr_append_zero,
          cstr_append_zero]
      rw [hcut]
      exact (or_iff_left fun h => h.2.1 hnul).symm
    · have hdecoded := (zero_mem_uriDecode huri).not.mpr hnul
      have hdrop : 0 ∉ uri.drop (uriDecode uri).length := fun h => huri (List.mem_of_mem_drop h)
      have hindex : 0 ∉ text "index.html" := by decide
      have hend : uri.drop (uriDecode uri).length = [] ∨
          (uri.drop (uriDecode uri).length).getLast? = some (chr '/') := by
        rw [List.getLast?_drop]
        split
        · exact .inl (List.drop_eq_nil_of_le ‹_›)
        · exact .inr hlast
      have hslash : ∃ l, uriDecode uri = l ++ [chr '/'] := by
        obtain ⟨u, hu⟩ := List.getLast?_eq_some_iff.mp hlast
        exact ⟨uriDecode u, by rw [hu]; exact uriDecode_append_slash (.head _) u []⟩
      have hpath : cstr (uriDecode uri ++ (uri.drop (uriDecode uri).length ++ text "index.html")) =
          uriDecode uri ++ (uri.drop (uriDecode uri).length ++ text "index.html") := by
        refine cstr_eq ?_
        simp only [List.mem_append, not_or]
        exact ⟨hdecoded, hdrop, hindex⟩
      obtain ⟨l, hl⟩ := hslash
      have hsplit (r : List UInt8) : DotDot (uriDecode uri ++ r) ↔
          DotDot (uriDecode uri) ∨ DotDot r := by
        rw [hl, dotDot_append_slash, List.append_assoc, List.singleton_append, dotDot_append]
      rw [hpath, hsplit, dotDot_append_index _ hend, (cut_eq_self uri).mpr hnul]
      simp [hlast, hnul]
  · rename_i hlast
    rw [cstr_uriDecode huri]
    exact (or_iff_left fun h => hlast h.1).symm

theorem slash_relative (huri : 0 ∉ uri) : relative uri = [] ∨ text "/" <+: relative uri ↔
    cut uri = [] ∨ ∃ a ∈ slashes, a <+: uri := by
  cases uri with
  | nil => exact iff_of_true (.inl rfl) (.inl rfl)
  | cons c src =>
    obtain ⟨rest, hrest⟩ : ∃ rest, relative (c :: src) = cstr (uriDecode (c :: src) ++ rest) := by
      rw [relative]
      split
      · exact ⟨_, rfl⟩
      · exact ⟨[], by rw [List.append_nil]⟩
    obtain ⟨t, y, post, hu, ht, hdecode⟩ := uriDecode_cons c src
    rw [hrest, hdecode, List.cons_append]
    by_cases hy : y = 0
    · subst hy
      rcases ht.nul rfl with rfl | rfl
      · exact absurd (hu ▸ .head _) huri
      · refine iff_of_true (.inl (by simp [cstr])) (.inl ?_)
        rw [cut, if_pos ⟨post, hu.symm⟩]
    · have hcut : cut (c :: src) ≠ [] := by
        rw [cut]
        split
        · rename_i hnul
          obtain ⟨q, hq⟩ := hnul
          rw [← hq, uriDecode_nul] at hdecode
          exact absurd (List.cons.inj hdecode).1.symm hy
        · exact List.cons_ne_nil _ _
      rw [cstr_cons hy, or_iff_right (List.cons_ne_nil _ _), or_iff_right hcut]
      constructor
      · rintro ⟨q, hq⟩
        exact ⟨t, ht.slash (List.cons.inj hq).1.symm, post, hu.symm⟩
      · rintro ⟨a, ha, q, hq⟩
        rw [← hq, uriDecode_slash ha] at hdecode
        exact ⟨_, congrArg (· :: _) (List.cons.inj hdecode).1⟩

theorem inside_relative (huri : 0 ∉ uri) : Inside dirname (dirname ++ relative uri) ↔
    (cut uri = [] ∨ (∃ a ∈ slashes, a <+: uri) ∨ dirname.getLast? = some (chr '/')) ∧
      ¬ EncodedDotDot (cut uri) ∧ ¬ LeftOver uri := by
  have hrel : Inside dirname (dirname ++ relative uri) ↔ ¬ DotDot (relative uri) ∧
      (relative uri = [] ∨ text "/" <+: relative uri ∨ dirname.getLast? = some (chr '/')) := by
    constructor
    · rintro ⟨rel, hrel, h⟩
      exact List.append_cancel_left hrel ▸ h
    · exact fun h => ⟨relative uri, rfl, h⟩
  rw [hrel, dotDot_relative huri, ← or_assoc, slash_relative huri, or_assoc, not_or]
  exact and_comm

/-- The name made for a URI is that of a file of the directory exactly when the URI is harmless. -/
theorem inside_fileName (hdirname : 0 ∉ dirname) (huri : 0 ∉ uri) :
    (∃ path, fileName junk dirname uri = some path ∧ Inside dirname path) ↔
      Harmless dirname uri := by
  constructor
  · rintro ⟨path, hpath, hinside⟩
    have hfits : Fits dirname uri := by
      by_contra hmoved
      rw [fileName_none hmoved] at hpath
      exact nomatch hpath
    rw [fileName_some hdirname hfits] at hpath
    obtain rfl := Option.some.inj hpath
    obtain ⟨hslash, hdots, hleft⟩ := (inside_relative huri).mp hinside
    exact ⟨hfits, hslash, hdots, hleft⟩
  · rintro ⟨hfits, hslash, hdots, hleft⟩
    exact ⟨_, fileName_some hdirname hfits, (inside_relative huri).mpr ⟨hslash, hdots, hleft⟩⟩

/-- The request of a thread that may open a file at its next step. -/
def Serve.request : Serve → Option Uri
  | .create uri | .check uri _ => some uri
  | _ => none

/-- The URI whose file is opened then: the name of the file of an entry is made when the entry is
created, and kept. -/
def Serve.opens (s : Server) : Serve → Option Uri
  | .create uri => some uri
  | .check _ e => (s.entry e).map Entry.uri
  | _ => none

/-- In no run a thread that serves a request for the URI opens a file that is not in the
directory. -/
def Safe (junk : ℕ → UInt8) (dirname uri : List UInt8) : Prop :=
  ∀ (cacheSize : UInt64) (events : List (Event Serve File)) (p : Pool Server Serve),
    server.run ⟨create cacheSize, []⟩ events = some p → ∀ c ∈ p.procs, c.request = some uri →
      ∀ u, c.opens p.shared = some u →
        ∃ path, fileName junk dirname u = some path ∧ Inside dirname path

/-- The entry that a thread has found. -/
def Serve.found? : Serve → Option (Uri × ℕ)
  | .found uri e | .check uri e => some (uri, e)
  | _ => none

/-- The entries in the cache and those that have been found are for the URIs they are found
under. -/
structure Named (p : Pool Server Serve) : Prop where
  cached : ∀ b ∈ p.shared.cache, p.shared.uri? b.2 = some b.1
  found : ∀ c ∈ p.procs, ∀ b, c.found? = some b → p.shared.uri? b.2 = some b.1

variable {s s' : Server} {c : Serve} {cs new : List Serve} {file : File} {e e' : ℕ}
  {entry : Entry} {cache : List (Uri × ℕ)}

theorem mem_of_get {u : Uri} (h : get HttpMsg.strings cache u = some e) : (u, e) ∈ cache := by
  obtain ⟨b, hb, rfl⟩ := Option.map_eq_some_iff.mp h
  have hkey := List.find?_some hb
  obtain rfl : b.1 = u := beq_iff_eq.mp hkey
  exact List.mem_of_find?_eq_some hb

theorem mem_set {u : Uri} {b : Uri × ℕ} (h : b ∈ OrderedMap.set HttpMsg.strings cache u e) :
    b ∈ cache ∨ b = (u, e) := by
  rw [OrderedMap.set] at h
  split at h
  · obtain ⟨b', hb', rfl⟩ := List.mem_map.mp h
    split
    · rename_i hkey
      exact .inr (Prod.ext (beq_iff_eq.mp hkey) rfl)
    · exact .inl hb'
  · simpa using h

theorem uri?_step (h : Step s file c s' new) {u : Uri} (hu : s.uri? e = some u) :
    s'.uri? e = some u := by
  have hmodify {n : ℕ} {f : Entry → Entry} (hf : ∀ entry, (f entry).uri = entry.uri) :
      (s.modifyEntry n f).uri? e = some u := (uri?_modifyEntry s n e hf).trans hu
  have hlock {s₁ : Server} (hs : s.lock = some s₁) : s₁.uri? e = some u := by
    rw [(Server.lock_eq hs).2]
    exact hu
  have hlockEntry {n : ℕ} {s₁ : Server} (hs : s.lockEntry n = some s₁) : s₁.uri? e = some u := by
    obtain ⟨entry, -, -, rfl⟩ := Server.lockEntry_eq hs
    exact hmodify fun _ => rfl
  have hcheck {v : Uri} {n : ℕ} {entry : Entry} :
      (check s v n entry file).1.uri? e = some u := by
    rcases check_fst s v n entry file with hs | ⟨sb, -, -, -, hs⟩
    · rw [hs]
      exact hu
    · rw [hs]
      exact hmodify fun _ => rfl
  cases h with
  | get hs | removing hs | setting hs => exact hlock hs
  | found hs | waitDup hs | refused hs => exact hlockEntry hs
  | valid _ _ | invalid _ _ => exact hcheck
  | respond _ | destroy _ | dropDup _ => exact hmodify fun _ => rfl
  | create _ =>
    obtain ⟨entry, hentry, -⟩ := Option.map_eq_some_iff.mp hu
    rw [Server.uri?, List.getElem?_append_left (List.getElem?_eq_some_iff.mp hentry).1]
    exact hu
  | hit _ | miss _ | remove _ _ | absent _ | noDup _ _ | takeDup _ _ | full _ _ | set _ _ =>
    exact hu

theorem cached_step (h : Step s file c s' new) (hs : ∀ b ∈ s.cache, s.uri? b.2 = some b.1) :
    ∀ b ∈ s'.cache, s'.uri? b.2 = some b.1 := by
  suffices hcases : ∀ b ∈ s'.cache, s.uri? b.2 = some b.1 from
    fun b hb => uri?_step h (hcases b hb)
  have hremove {u : Uri} : ∀ b ∈ OrderedMap.remove HttpMsg.strings s.cache u,
      s.uri? b.2 = some b.1 := fun b hb => hs b (List.mem_of_mem_filter hb)
  cases h with
  | get hl | removing hl | setting hl => rw [(Server.lock_eq hl).2]; exact hs
  | found hl | waitDup hl | refused hl =>
    obtain ⟨entry, -, -, rfl⟩ := Server.lockEntry_eq hl
    exact hs
  | valid _ _ | invalid _ _ =>
    rcases check_fst s _ _ _ file with hc | ⟨sb, -, -, -, hc⟩ <;> rw [hc] <;> exact hs
  | remove _ _ | takeDup _ _ => exact hremove
  | set he _ =>
    intro b hb
    rcases mem_set hb with hb | rfl
    · exact hs b hb
    · exact uri?_eq he
  | hit _ | miss _ | respond _ | destroy _ | absent _ | create _ | noDup _ | dropDup _
  | full _ _ => exact hs

theorem named_step (h : Named ⟨s, c :: cs⟩) (hstep : step s c file = some (s', new)) :
    Named ⟨s', new ++ cs⟩ := by
  have hs := step_cases hstep
  refine ⟨cached_step hs h.cached, fun d hd b hb => ?_⟩
  rcases List.mem_append.mp hd with hnew | hold
  · suffices s.uri? b.2 = some b.1 from uri?_step hs this
    cases hs with
    | hit hget =>
      obtain rfl := List.mem_singleton.mp hnew
      obtain rfl := Option.some.inj hb
      exact h.cached _ (mem_of_get hget)
    | found _ =>
      obtain rfl := List.mem_singleton.mp hnew
      exact h.found _ (.head _) b hb
    | respond _ | destroy _ | absent _ | set _ _ => exact absurd hnew List.not_mem_nil
    | _ =>
      obtain rfl := List.mem_singleton.mp hnew
      cases hb
  · exact uri?_step hs (h.found d (.tail _ hold) b hb)

theorem named_create (cacheSize : UInt64) : Named ⟨create cacheSize, []⟩ :=
  ⟨fun _ hb => absurd hb List.not_mem_nil, fun _ hc => absurd hc List.not_mem_nil⟩

theorem named_run {cacheSize : UInt64} {events : List (Event Serve File)} {p : Pool Server Serve}
    (hrun : server.run ⟨create cacheSize, []⟩ events = some p) : Named p := by
  refine System.run_invariant (A := fun _ _ _ => True) ?_ (fun _ h => h) ?_
    (fun h _ => named_step h) (named_create cacheSize)
    (System.along_of_forall (fun _ _ _ => trivial) _) hrun
  · intro q cs cs' hperm h
    exact ⟨h.cached, fun c hc => h.found c (hperm.mem_iff.mpr hc)⟩
  · intro q cs c h hc
    refine ⟨h.cached, List.forall_mem_cons.mpr ⟨fun b hb => ?_, h.found⟩⟩
    cases c with
    | get uri => exact nomatch hb
    | _ => exact nomatch hc

theorem opens_request {cacheSize : UInt64} {events : List (Event Serve File)}
    {p : Pool Server Serve} (hrun : server.run ⟨create cacheSize, []⟩ events = some p)
    (hc : c ∈ p.procs) (hrequest : c.request = some uri) {u : Uri}
    (hopens : c.opens p.shared = some u) : u = uri := by
  cases c with
  | create uri' => exact Option.some.inj (hopens.symm.trans hrequest)
  | check uri' e =>
    obtain ⟨entry, he, rfl⟩ := Option.map_eq_some_iff.mp hopens
    have hfound := (named_run hrun).found _ hc _ rfl
    rw [uri?_eq he] at hfound
    exact Option.some.inj (hfound.trans hrequest)
  | _ => exact nomatch hrequest

theorem Safe.inside (h : Safe junk dirname uri) :
    ∃ path, fileName junk dirname uri = some path ∧ Inside dirname path := by
  have file : File := ⟨none, false, false⟩
  exact h 0 [.start (.get uri), .turn 0 file, .turn 0 file] ⟨create 0, [.create uri]⟩ rfl
    (.create uri) (.head _) rfl uri rfl

/-- No request for a URI opens a file outside of the directory, in any run, if and only if the URI
is harmless. -/
theorem safe_iff (hdirname : 0 ∉ dirname) (huri : 0 ∉ uri) :
    Safe junk dirname uri ↔ Harmless dirname uri := by
  refine ⟨fun h => (inside_fileName hdirname huri).mp h.inside, fun h => ?_⟩
  intro cacheSize events p hrun c hc hrequest u hopens
  rw [opens_request hrun hc hrequest hopens]
  exact (inside_fileName hdirname huri).mpr h

theorem safe_iff_index : 0 ∉ text "/srv/www" ∧ 0 ∉ text "/css/a%20b.css" ∧
    (Safe (fun _ => 0) (text "/srv/www") (text "/css/a%20b.css") ↔
      Harmless (text "/srv/www") (text "/css/a%20b.css")) :=
  ⟨by decide, by decide, safe_iff (by decide) (by decide)⟩

/-- The dots of the segment are encoded. -/
theorem not_safe_parent :
    ¬ Safe (fun _ => 0) (text "/srv/www") (text "/%2e%2e/private/key") := by
  intro h
  have hharmless := (inside_fileName (by decide) (by decide)).mp h.inside
  exact hharmless.noDotDot (by decide +kernel)

end Libuo.FileServer
