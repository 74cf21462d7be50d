import Libuo.FileServerCoherence
import Libuo.HttpExchange
import Libuo.HttpNoContent

/-!
# Downloads

A client that asks a server for a file, and a file server that answers from its cache, whatever
else it is serving at the same time.
-/

namespace Libuo.HttpDownload
open CStrings CText HttpMsg HttpHeaders HttpRoundTrip HttpDelivery HttpNoContent HttpConns
open HttpAnswers HttpExchange ByteStreams Interleaving
open FileServer (Uri Disk Served Contents Serve filetype typeOf found notFound plain plain_readable
  plain_unreadable readable_eq_some Looks contents opened)

def filetypes : List (List UInt8) :=
  [text "application/octet-stream", text "text/html; charset=utf-8",
    text "application/javascript; charset=utf-8", text "text/css; charset=utf-8",
    text "image/svg+xml; charset=utf-8"]

theorem filetype_mem (filename : List UInt8) : filetype filename ∈ filetypes := by
  rw [filetype]
  split
  · simp [filetypes]
  · split
    · simp [filetypes]
    · split_ifs <;> simp [filetypes]

theorem oneLine_filetype (filename : List UInt8) : OneLine (filetype filename) := by
  have h : ∀ t ∈ filetypes, OneLine t := by decide
  exact h _ (filetype_mem filename)

theorem trimmed_filetype (filename : List UInt8) :
    ∀ c ∈ (filetype filename).head?, isspace c = false := by
  have h : ∀ t ∈ filetypes, ∀ c ∈ t.head?, isspace c = false := by decide
  exact h _ (filetype_mem filename)

theorem valid_notFound : (Start.response .s404 .v1_1).Valid := ⟨by decide, by decide⟩

theorem short_notFound : (text "404 Not Found").length < 2 ^ 64 := by decide

/-- A response with the content of a file. -/
def file (filename block : List UInt8) (hshort : block.length < 2 ^ 64) : Message where
  start := .response .s200 .v1_1
  headers := []
  content := block
  contentType := filetype filename
  valid := valid_ok
  distinct := distinct_nil
  other := other_nil
  oneLine := oneLine_filetype filename
  trimmed := trimmed_filetype filename
  short := hshort

def noFile : Message where
  start := .response .s404 .v1_1
  headers := []
  content := text "404 Not Found"
  contentType := text "text/plain"
  valid := valid_notFound
  distinct := distinct_nil
  other := other_nil
  oneLine := oneLine_plain
  trimmed := trimmed_plain
  short := short_notFound

variable {name : Uri → List UInt8} {version : Uri → ℤ → Option (List UInt8)} {uri : Uri} {d : Disk}
  {filename block : List UInt8} {size : UInt64} {hshort : block.length < 2 ^ 64}

theorem found_eq (h : block.length = size.toNat) :
    found block (filetype filename) size (create .response []) =
      compose (file filename block hshort) [.start, .content] := by
  rw [found, ← h]
  rfl

theorem notFound_eq : notFound (create .response []) = compose noFile [.start, .content] := rfl

/-- The length of a content has at most twenty digits. -/
theorem length_printNat_le {n : ℕ} (h : n < 2 ^ 64) : (printNat n).length ≤ 20 := by
  rw [printNat, List.length_map, Nat.length_toDigits_le_iff (by decide) (by decide)]
  exact h.trans (by decide)

theorem deliverable_file (hcontent : NoEmptyLine block) :
    Deliverable (file filename block hshort) [.start, .content] := by
  have hlength : Printable (file filename block hshort).contentLengthField.line.text := by
    have hdigits := length_printNat_le hshort
    have htext : (file filename block hshort).contentLengthField.line.text =
        text "content-length" ++ chr ':' :: chr ' ' :: printNat block.length := rfl
    have hname : (text "content-length").length = 14 := rfl
    have hcrlf : crlf.length = 2 := rfl
    rw [Printable, htext]
    simp only [List.length_append, List.length_cons, hname, hcrlf]
    omega
  have htype : Printable (file filename block hshort).contentTypeField.line.text :=
    (by decide : ∀ t ∈ filetypes, Printable (text "content-type" ++ chr ':' :: chr ' ' :: t)) _
      (filetype_mem filename)
  have hvalue : filetype filename ≠ [] :=
    (by decide : ∀ t ∈ filetypes, t ≠ []) _ (filetype_mem filename)
  have hfields : ∀ f ∈ (file filename block hshort).fields,
      f = (file filename block hshort).contentLengthField ∨
        f = (file filename block hshort).contentTypeField := by
    intro f hf
    rw [Message.fields, Message.contentFields] at hf
    split at hf
    · exact .inl (by simpa [file] using hf)
    · simpa [file] using hf
  have hstart : Printable (Start.response .s200 .v1_1).text := by decide
  refine ⟨.refl _, ⟨hstart, fun f hf => ?_⟩, fun f hf => ?_, hcontent⟩
  · rcases hfields f hf with rfl | rfl
    · exact hlength
    · exact htype
  · rcases hfields f hf with rfl | rfl
    · exact printNat_ne_nil _
    · exact hvalue

theorem deliverable_noFile : Deliverable noFile [.start, .content] :=
  ⟨.refl _, ⟨by decide, by decide⟩, by decide, noEmptyLine_of_notMem (by decide)⟩

/-- The response has the file, or tells that there is none. -/
def Fetched (filename : List UInt8) (d : Disk) (response : Msg) : Prop :=
  match d.readable with
  | some block => response.status = .s200 ∧ response.body.getD [] = block ∧
      response.bodyLen = block.length ∧
      (block ≠ [] → getHeader response (text "content-type") = some (filetype filename))
  | none => response.status = .s404 ∧ response.body.getD [] = text "404 Not Found"

/-- What is set without a cache is a message that travels, and has what can be read. -/
theorem exists_message (name : Uri → List UInt8) (uri : Uri)
    (hcontent : ∀ block, d.readable = some block → NoEmptyLine block) :
    ∃ m, plain name uri d (create .response []) = compose m [.start, .content] ∧
      Travels m [.start, .content] ∧ m.start.type = .response ∧
      ∀ response, Carries response m [.start, .content] → Fetched (name uri) d response := by
  cases hread : d.readable with
  | none =>
    refine ⟨noFile, ?_, deliverable_noFile.travels, rfl, fun response h => ?_⟩
    · rw [plain_unreadable hread]
      exact notFound_eq
    · rw [Fetched, hread]
      exact ⟨h.start.1, h.content⟩
  | some block =>
    obtain ⟨sb, hstat, -, -, -, hlength⟩ := readable_eq_some hread
    have hshort : block.length < 2 ^ 64 := hlength ▸ sb.size.toNat_lt
    refine ⟨file (name uri) block hshort, ?_, (deliverable_file (hcontent block hread)).travels,
      rfl, fun response h => ?_⟩
    · rw [plain_readable hread hstat]
      exact found_eq hlength
    · rw [Fetched, hread]
      refine ⟨h.start.1, h.content, h.length, fun hne => ?_⟩
      rw [h.headers]
      have hcomposes : Composes (file (name uri) block hshort) [.start, .content] := .refl _
      have hfield : (file (name uri) block hshort).contentTypeField ∈
          sent (file (name uri) block hshort) [.start, .content] := by
        rw [(sent_perm hcomposes).mem_iff, Message.fields, Message.contentFields,
          if_neg (show ¬ (file (name uri) block hshort).content = [] from hne)]
        simp
      exact getHeader_compose hcomposes hfield

/-- A request for a URI travels. -/
theorem travels_asks (huri : uri ≠ []) (hline : OneLine uri)
    (hprintable : Printable (asks uri huri hline).start.text) :
    Travels (asks uri huri hline) [.start] := by
  have hbare : Bare (asks uri huri hline) [.start] := ⟨.refl _, rfl⟩
  have hlength : Printable (asks uri huri hline).contentLengthField.line.text := by
    have htext : (asks uri huri hline).contentLengthField.line.text =
        text "content-length" ++ chr ':' :: chr ' ' ::
          printNat (asks uri huri hline).content.length := rfl
    rw [htext, show (asks uri huri hline).content.length = 0 from rfl]
    decide
  refine travels_bare hbare ⟨hprintable, fun f hf => ?_⟩ (by simp [asks]) ?_
  · rw [List.mem_singleton.mp hf]
    exact hlength
  · rw [needsNoBody_compose hbare]
    rfl

/-- A client with its request, and a server whose file server sets the response. -/
def setup (junk : ℕ → UInt8) (reqHandlers : ℕ) (req : Msg) (set : Msg → Msg) : Setup where
  junk
  reqHandlers
  req
  respond _ := create .response []
  fileServer := some fun _ => set

end Libuo.HttpDownload
