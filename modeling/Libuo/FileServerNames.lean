import Libuo.FileServerPaths
import Libuo.UriDecodeMemory

/-!
# The name of a file

The name that is made for a URI should be that of the directory with the decoded URI behind it, and
`index.html` behind a slash. The URI is first copied as it is and decoded over the copy, and the
position of the buffer stays where the copy ends.
-/

namespace Libuo.FileServer
open CStrings CText UriDecode UriDecodeMemory

def index (uri : List UInt8) : List UInt8 :=
  if uri.getLast? = some (chr '/') then text "index.html" else []

/-- On a cache miss the file is opened that the URI stands for. -/
def OpensDecoded (junk : ℕ → UInt8) (dirname uri : List UInt8) : Prop :=
  fileName junk dirname uri = some (dirname ++ (decoding uri ++ index uri))

/-- A percent sign with two hexadecimal digits behind it. -/
def HasEscape (uri : List UInt8) : Prop :=
  ∃ a b, isxdigit a = true ∧ isxdigit b = true ∧ [chr '%', a, b] <:+: uri

/-- The buffer has room for the URI as it is, no NUL is encoded, and a URI that ends in a slash has
no escape. -/
structure Straight (dirname uri : List UInt8) : Prop where
  fits : Fits dirname uri
  noNul : ¬ text "%00" <:+: uri
  noEscape : uri.getLast? = some (chr '/') → ¬ HasEscape uri

variable {junk : ℕ → UInt8} {dirname uri : List UInt8} {c : UInt8}

theorem HasEscape.cons (h : HasEscape uri) (c : UInt8) : HasEscape (c :: uri) := by
  obtain ⟨a, b, ha, hb, hinfix⟩ := h
  exact ⟨a, b, ha, hb, List.infix_cons hinfix⟩

theorem length_uriDecode_lt_iff (uri : List UInt8) :
    (uriDecode uri).length < uri.length ↔ HasEscape uri := by
  constructor
  · fun_induction uriDecode uri with
    | case1 => exact fun h => absurd h (Nat.lt_irrefl _)
    | case2 a b src ih | case4 c a b src hplus hescape ih | case5 c src hsrc ih =>
      exact fun h => (ih (Nat.lt_of_succ_lt_succ h)).cons _
    | case3 c a b src hplus hescape ih =>
      obtain ⟨rfl, ha, hb⟩ := isEscape_iff.mp hescape
      exact fun _ => ⟨a, b, ha, hb, [], src, rfl⟩
  · rintro ⟨a, b, ha, hb, pre, post, rfl⟩
    have hsplit : uriDecode (pre ++ chr '%' :: a :: b :: post) =
        uriDecode pre ++ escaped a b :: uriDecode post := by
      rw [uriDecode_append (by decide), uriDecode, if_neg (by decide),
        if_pos (isEscape_iff.mpr ⟨rfl, ha, hb⟩)]
    have hpre := length_uriDecode_le pre
    have hpost := length_uriDecode_le post
    rw [List.append_assoc]
    change (uriDecode (pre ++ chr '%' :: a :: b :: post)).length < _
    rw [hsplit]
    simp only [List.length_append, List.length_cons, List.length_nil]
    omega

theorem relative_eq_iff (huri : 0 ∉ uri) : relative uri = decoding uri ++ index uri ↔
    ¬ text "%00" <:+: uri ∧ (uri.getLast? = some (chr '/') → ¬ HasEscape uri) := by
  have hlength := length_uriDecode_le uri
  have hzero := zero_mem_uriDecode huri
  rw [← uriDecode_eq, ← length_uriDecode_lt_iff, ← hzero]
  constructor
  · intro h
    have hdecoded : 0 ∉ uriDecode uri := by
      have hpath : 0 ∉ relative uri := by
        rw [relative]
        split <;> exact zero_not_mem_cstr _
      rw [h] at hpath
      exact fun h0 => hpath (List.mem_append_left _ h0)
    refine ⟨hdecoded, fun hlast => ?_⟩
    have hpath : 0 ∉ uriDecode uri ++ (uri.drop (uriDecode uri).length ++ text "index.html") := by
      simp only [List.mem_append, not_or]
      exact ⟨hdecoded, fun h0 => huri (List.mem_of_mem_drop h0), by decide⟩
    rw [relative, index, if_pos hlast, if_pos hlast, cstr_eq hpath] at h
    have hdrop : uri.drop (uriDecode uri).length = [] := by
      have hsame := congrArg List.length (List.append_cancel_left h)
      rw [List.length_append] at hsame
      exact List.eq_nil_of_length_eq_zero (by omega)
    have := List.drop_eq_nil_iff.mp hdrop
    omega
  · rintro ⟨hdecoded, hescape⟩
    rw [relative, index]
    split
    · rename_i hlast
      have hdrop : uri.drop (uriDecode uri).length = [] :=
        List.drop_eq_nil_of_le (Nat.le_of_not_lt (hescape hlast))
      rw [hdrop, List.nil_append, cstr_append hdecoded]
      rfl
    · rw [cstr_eq hdecoded, List.append_nil]

/-- The file is the one the URI stands for if and only if the URI is straight. -/
theorem opensDecoded_iff (hdirname : 0 ∉ dirname) (huri : 0 ∉ uri) :
    OpensDecoded junk dirname uri ↔ Straight dirname uri := by
  constructor
  · intro h
    have hfits : Fits dirname uri := by
      by_contra hmoved
      rw [OpensDecoded, fileName_none hmoved] at h
      cases h
    rw [OpensDecoded, fileName_some hdirname hfits] at h
    have hrelative := List.append_cancel_left (Option.some.inj h)
    obtain ⟨hnul, hescape⟩ := (relative_eq_iff huri).mp hrelative
    exact ⟨hfits, hnul, hescape⟩
  · intro h
    rw [OpensDecoded, fileName_some hdirname h.fits,
      (relative_eq_iff huri).mpr ⟨h.noNul, h.noEscape⟩]

theorem opensDecoded_iff_space : 0 ∉ text "/srv/www" ∧ 0 ∉ text "/a%20b.css" ∧
    (OpensDecoded (fun _ => 0) (text "/srv/www") (text "/a%20b.css") ↔
      Straight (text "/srv/www") (text "/a%20b.css")) :=
  ⟨by decide, by decide, opensDecoded_iff (by decide) (by decide)⟩

/-- Behind the decoded name of the directory, the last two characters of the URI are left. -/
theorem not_opensDecoded_directory :
    ¬ OpensDecoded (fun _ => 0) (text "/srv/www") (text "/a%20b/") := by
  have hfits : Fits (text "/srv/www") (text "/a%20b/") := by
    intro k _
    have := Nat.one_le_two_pow (n := k)
    change 8 + 7 < 0x100 * 2 ^ k
    omega
  intro h
  rw [OpensDecoded, fileName_some (by decide) hfits] at h
  exact absurd (List.append_cancel_left (Option.some.inj h)) (by decide +kernel)

end Libuo.FileServer
