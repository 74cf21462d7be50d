import Libuo.TcpFraming
import Mathlib.Data.List.Infix

/-!
# Streams of messages

The messages that are in a stream of bytes as a whole, one behind the other, each with its length
before it.
-/

namespace Libuo.TcpMessages
open TcpFraming

/-- The stream begins with a whole message. -/
def Whole (r : List UInt8) : Prop := 4 ≤ r.length ∧ 4 + ntohl (r.take 4) ≤ r.length

instance (r : List UInt8) : Decidable (Whole r) :=
  inferInstanceAs (Decidable (_ ∧ _))

def unframe : ℕ → List UInt8 → List (List UInt8)
  | 0, _ => []
  | fuel + 1, r =>
    if Whole r then
      (r.drop 4).take (ntohl (r.take 4)) :: unframe fuel (r.drop (4 + ntohl (r.take 4)))
    else []

def messages (r : List UInt8) : List (List UInt8) := unframe r.length r

variable {r r' p : List UInt8} {msg : List UInt8} {ms : List (List UInt8)} {fuel fuel' : ℕ}

theorem Whole.mono (h : Whole r) (hp : r <+: r') : Whole r' ∧ r'.take 4 = r.take 4 := by
  obtain ⟨s, rfl⟩ := hp
  have htake : (r ++ s).take 4 = r.take 4 := List.take_append_of_le_length h.1
  refine ⟨⟨?_, ?_⟩, htake⟩
  · rw [List.length_append]
    exact Nat.le_add_right_of_le h.1
  · rw [htake, List.length_append]
    exact Nat.le_add_right_of_le h.2

/-- More bytes have the messages that there have been before. -/
theorem unframe_mono (hp : r <+: r') (hfuel : fuel ≤ fuel') :
    unframe fuel r <+: unframe fuel' r' := by
  induction fuel generalizing r r' fuel' with
  | zero => exact List.nil_prefix
  | succ fuel ih =>
    rw [unframe]
    split
    · rename_i hwhole
      obtain ⟨fuel', rfl⟩ : ∃ f, fuel' = f + 1 := ⟨fuel' - 1, by omega⟩
      obtain ⟨hwhole', htake⟩ := hwhole.mono hp
      obtain ⟨s, rfl⟩ := hp
      have hlen := hwhole.2
      rw [unframe, if_pos hwhole', htake, List.drop_append_of_le_length hwhole.1,
        List.take_append_of_le_length (by rw [List.length_drop]; omega),
        List.drop_append_of_le_length hlen, List.cons_prefix_cons]
      exact ⟨rfl, ih (List.prefix_append _ _) (by omega)⟩
    · exact List.nil_prefix

theorem messages_mono (hp : r <+: r') : messages r <+: messages r' :=
  unframe_mono hp hp.length_le

theorem take_frame (msg p : List UInt8) : (frame msg ++ p).take 4 = htonl msg.length := by
  rw [frame, List.append_assoc]
  rfl

theorem whole_frame (hmsg : msg.length < 2 ^ 32) (p : List UInt8) : Whole (frame msg ++ p) := by
  refine ⟨?_, ?_⟩
  · rw [List.length_append, length_frame]
    omega
  · rw [take_frame, ntohl_htonl hmsg, List.length_append, length_frame]
    omega

theorem unframe_frame (hmsg : msg.length < 2 ^ 32) (fuel : ℕ) (p : List UInt8) :
    unframe (fuel + 1) (frame msg ++ p) = msg :: unframe fuel p := by
  have hdrop : (frame msg ++ p).drop 4 = msg ++ p := by
    rw [frame, List.append_assoc]
    rfl
  have hbehind : (frame msg ++ p).drop (4 + msg.length) = p :=
    List.drop_left' (length_frame msg)
  rw [unframe, if_pos (whole_frame hmsg p), take_frame, ntohl_htonl hmsg, hdrop, hbehind,
    List.take_left]

/-- There is no message beyond the bytes. -/
theorem unframe_of_le (h : r.length ≤ fuel) : unframe fuel r = messages r := by
  have hfuel : ∀ n fuel r, r.length ≤ n → n ≤ fuel → unframe fuel r = unframe n r := by
    intro n
    induction n with
    | zero =>
      intro fuel r hr hfuel
      obtain rfl := List.eq_nil_of_length_eq_zero (Nat.le_zero.mp hr)
      cases fuel with
      | zero => rfl
      | succ fuel => exact if_neg (by simp [Whole])
    | succ n ih =>
      intro fuel r hr hfuel
      obtain ⟨fuel, rfl⟩ : ∃ f, fuel = f + 1 := ⟨fuel - 1, by omega⟩
      rw [unframe, unframe, ih fuel _ (by rw [List.length_drop]; omega) (by omega)]
  exact hfuel _ _ _ (Nat.le_refl _) h

theorem messages_frame (hmsg : msg.length < 2 ^ 32) (p : List UInt8) :
    messages (frame msg ++ p) = msg :: messages p := by
  have hlen : (frame msg ++ p).length = 3 + msg.length + p.length + 1 := by
    rw [List.length_append, length_frame]
    omega
  rw [messages, hlen, unframe_frame hmsg, unframe_of_le (by omega)]

/-- What comes behind whole messages. -/
theorem messages_append (hms : ∀ m ∈ ms, m.length < 2 ^ 32) (p : List UInt8) :
    messages (ms.flatMap frame ++ p) = ms ++ messages p := by
  induction ms with
  | nil => rfl
  | cons m ms ih =>
    rw [List.flatMap_cons, List.append_assoc, messages_frame (hms m (.head _)),
      ih fun m hm => hms m (.tail _ hm), List.cons_append]

/-- A part of a message is none. -/
theorem messages_part (hp : p <+: frame msg) (hne : p ≠ frame msg) (hmsg : msg.length < 2 ^ 32) :
    messages p = [] := by
  have hnot : ¬ Whole p := by
    intro hwhole
    obtain ⟨-, htake⟩ := hwhole.mono hp
    have hframe := take_frame msg []
    rw [List.append_nil] at hframe
    have hlen := hwhole.2
    rw [← htake, hframe, ntohl_htonl hmsg, ← length_frame] at hlen
    exact hne (hp.eq_of_length_le hlen)
  rw [messages]
  cases p.length with
  | zero => rfl
  | succ n => exact if_neg hnot

end Libuo.TcpMessages
